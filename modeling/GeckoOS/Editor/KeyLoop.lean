import GeckoOS.Editor.Buffer
import Mathlib.Data.List.Infix
import Mathlib.Data.List.Induction

/-! The key loop of `editor_run` and the state of the Ctrl key. The prompt in front
of unsaved changes reads scancodes of its own. -/
namespace GeckoOS.Editor

def scBackspace : UInt8 := 0x0E
def scEnter : UInt8 := 0x1C
def scCtrlMake : UInt8 := 0x1D
def scCtrlBreak : UInt8 := 0x9D
def scQ : UInt8 := 0x10
def scS : UInt8 := 0x1F
def keyUp : UInt8 := 0x60
def keyDown : UInt8 := 0x61
def keyLeft : UInt8 := 0x62
def keyRight : UInt8 := 0x63

/-- A scancode that `ps2_kb_wfi` returns, what `scancode_to_ascii` makes of it then, and
whether `fat32_write_file` would succeed then. -/
structure Press where
  sc : UInt8
  ascii : UInt8
  written : Bool
  deriving DecidableEq

def Press.isBreak (p : Press) : Prop := p.sc &&& 0x80 ≠ 0

instance (p : Press) : Decidable p.isBreak := inferInstanceAs (Decidable (_ ≠ _))

/-- The loop that reads next: that of the keys or the one of the prompt, or none. -/
inductive Reader where
  | keys | prompt | gone
  deriving DecidableEq

structure Session where
  ed : Buffer
  ctrlHeld : Bool
  reader : Reader

namespace Session

/-- A key that changes the buffer at most. -/
def edit (s : Session) (key : Key) : Session := { s with ed := s.ed.step key }

/-- A pass of the loop in `editor_run`. -/
def keyPass (s : Session) (p : Press) : Session :=
  if p.sc &&& 0x7F = scCtrlMake then { s with ctrlHeld := ¬ p.isBreak }
  else if p.isBreak then s
  else if p.sc = keyUp then s.edit .up
  else if p.sc = keyDown then s.edit .down
  else if p.sc = keyLeft then s.edit .left
  else if p.sc = keyRight then s.edit .right
  else if s.ctrlHeld ∧ p.sc = scS then s.edit (.save p.written)
  else if s.ctrlHeld ∧ p.sc = scQ then { s with reader := if s.ed.dirty then .prompt else .gone }
  else if p.sc = scBackspace then s.edit .backspace
  else if p.sc = scEnter then s.edit (.insert newline)
  else if 0x20 ≤ p.ascii ∧ p.ascii < 0x80 then s.edit (.insert p.ascii)
  else s

/-- A pass of the loop that waits for the answer. -/
def promptPass (s : Session) (p : Press) : Session :=
  if p.isBreak then s
  else if p.sc = scQ ∧ s.ctrlHeld then { s with reader := .gone }
  else { s with reader := .keys }

def step (s : Session) (p : Press) : Session :=
  match s.reader with
  | .keys => s.keyPass p
  | .prompt => s.promptPass p
  | .gone => s

def run (s : Session) (ps : List Press) : Session := ps.foldl step s

/-- The loop begins with a loaded buffer. -/
def entered (ed : Buffer) : Session := ⟨ed, false, .keys⟩

end Session

/-! The key itself. -/

/-- Ctrl is held if its last event was a make. -/
def held (ps : List Press) : Bool :=
  ps.foldl (fun down p => if p.sc = scCtrlMake then true else if p.sc = scCtrlBreak then false else down) false

/-- The press of a key other than Ctrl. -/
def Press.IsKey (p : Press) : Prop := ¬ p.isBreak ∧ p.sc ≠ scCtrlMake

namespace Session

/-- The loops use the state of the key at every key that they process. -/
def Tracks (ed : Buffer) (ps : List Press) : Prop :=
  ∀ pre p post, ps = pre ++ p :: post → p.IsKey → ((entered ed).run pre).reader ≠ .gone →
    ((entered ed).run pre).ctrlHeld = held pre

/-- The loop is left with unsaved changes only by Ctrl and q twice, with releases between. -/
def LeftByTwo (ed : Buffer) (ps : List Press) : Prop :=
  ((entered ed).run ps).reader = .gone → ((entered ed).run ps).ed.dirty = true →
    ∃ pre q releases q' post, ps = pre ++ q :: releases ++ q' :: post ∧ q.sc = scQ ∧ q'.sc = scQ ∧
      (∀ r ∈ releases, r.isBreak) ∧
      held pre = true ∧ held (pre ++ q :: releases) = true

/-- The prompt reads the release of Ctrl, and after releases the press of another key. -/
def LosesRelease (ed : Buffer) (ps : List Press) : Prop :=
  ∃ pre r releases p post, ps = pre ++ r :: releases ++ p :: post ∧ ((entered ed).run pre).reader = .prompt ∧
    r.sc = scCtrlBreak ∧
    (∀ r ∈ releases, r.isBreak) ∧ p.IsKey

variable {ed : Buffer} {s : Session} {p : Press} {pre ps : List Press}

theorem run_snoc (s : Session) (ps : List Press) (p : Press) : s.run (ps ++ [p]) = (s.run ps).step p :=
    List.foldl_concat ..

theorem run_append (s : Session) (ps qs : List Press) : s.run (ps ++ qs) = (s.run ps).run qs :=
  List.foldl_append ..

theorem held_snoc (ps : List Press) (p : Press) :
    held (ps ++ [p]) = if p.sc = scCtrlMake then true else if p.sc = scCtrlBreak then false else held ps :=
      List.foldl_concat ..

/-- Both codes of the key have the same lower bits, and no other code has. -/
theorem ctrl_base (sc : UInt8) : sc &&& 0x7F = scCtrlMake ↔ sc = scCtrlMake ∨ sc = scCtrlBreak := by
  rw [← UInt8.toNat_inj, ← UInt8.toNat_inj, ← UInt8.toNat_inj, UInt8.toNat_and,
    show (0x7F : UInt8).toNat = 2 ^ 7 - 1 from rfl, Nat.and_two_pow_sub_one_eq_mod,
    show scCtrlMake.toNat = 29 from rfl, show scCtrlBreak.toNat = 157 from rfl]
  have := sc.toNat_lt
  omega

theorem isBreak_of_sc (h : p.sc = scCtrlBreak) : p.isBreak := by
  rw [Press.isBreak, h]
  decide

theorem not_isBreak_of_sc (h : p.sc = scCtrlMake ∨ p.sc = scQ) : ¬ p.isBreak := by
  rw [Press.isBreak]
  rcases h with h | h <;> rw [h] <;> decide

/-- The reader and the Ctrl key are as before. -/
private def Unmoved (s s' : Session) : Prop := s'.reader = s.reader ∧ s'.ctrlHeld = s.ctrlHeld

private theorem Unmoved.ite {c : Prop} [Decidable c] {s t u : Session} (ht : Unmoved s t) (hu : Unmoved s u) :
    Unmoved s (if c then t else u) := by
  split
  · exact ht
  · exact hu

/-- What a pass of the key loop does to the Ctrl key and to the reader. -/
theorem keyPass_cases (s : Session) (p : Press) :
    p.sc = scCtrlMake ∧ s.keyPass p = { s with ctrlHeld := true } ∨
    p.sc = scCtrlBreak ∧ s.keyPass p = { s with ctrlHeld := false } ∨
    p.sc ≠ scCtrlMake ∧ p.sc ≠ scCtrlBreak ∧
      ((s.keyPass p).reader = s.reader ∧ (s.keyPass p).ctrlHeld = s.ctrlHeld ∨
        p.sc = scQ ∧ s.ctrlHeld = true ∧
        s.keyPass p = { s with reader := if s.ed.dirty then .prompt else .gone }) := by
  rw [keyPass]
  by_cases hbase : p.sc &&& 0x7F = scCtrlMake
  · rw [if_pos hbase]
    rcases (ctrl_base p.sc).mp hbase with hmake | hbreak
    · simp [hmake, not_isBreak_of_sc (.inl hmake)]
    · simp [hbreak, isBreak_of_sc hbreak]
  · rw [if_neg hbase]
    rw [ctrl_base, not_or] at hbase
    refine .inr (.inr ⟨hbase.1, hbase.2, ?_⟩)
    by_cases hq : s.ctrlHeld = true ∧ p.sc = scQ
    · obtain ⟨hheld, hsc⟩ := hq
      refine .inr ⟨hsc, hheld, ?_⟩
      rw [if_neg (not_isBreak_of_sc (.inr hsc)), hsc, if_neg (by decide), if_neg (by decide),
        if_neg (by decide), if_neg (by decide),
        if_neg (fun h => absurd h.2 (by decide)), if_pos ⟨hheld, rfl⟩]
    · rw [if_neg hq]
      have hself : Unmoved s s := ⟨rfl, rfl⟩
      have hedit : ∀ e, Unmoved s (s.edit e) := fun e => ⟨rfl, rfl⟩
      have harrows : ∀ {t}, Unmoved s t → Unmoved s (if p.sc = keyUp then s.edit
        .up else if p.sc = keyDown then s.edit .down
          else if p.sc = keyLeft then s.edit .left else if p.sc = keyRight then s.edit .right else t) :=
            fun ht =>
        (hedit .up).ite ((hedit .down).ite ((hedit .left).ite ((hedit .right).ite ht)))
      exact .inl (hself.ite (harrows ((hedit _).ite ((hedit _).ite ((hedit _).ite ((hedit _).ite hself))))))

/-- In front of the prompt Ctrl counted as held, and the prompt does not change that. -/
theorem ctrlHeld_of_prompt (h : ((entered ed).run ps).reader = .prompt) :
    ((entered ed).run ps).ctrlHeld = true := by
  induction ps using List.reverseRecOn with
  | nil => cases h
  | append_singleton ps p ih =>
    rw [run_snoc] at h ⊢
    generalize (entered ed).run ps = s at *
    rw [step] at h ⊢
    cases hreader : s.reader with
    | gone =>
      simp only [hreader] at h
      cases h
    | prompt =>
      simp only [hreader, promptPass] at h ⊢
      split at h
      · next hbreak =>
        rw [if_pos hbreak]
        exact ih hreader
      · split at h <;> cases h
    | keys =>
      simp only [hreader] at h ⊢
      obtain ⟨-, heq⟩ | ⟨-, heq⟩ | ⟨-, -, ⟨hsame, -⟩ | ⟨-, hheld, heq⟩⟩ := keyPass_cases s p
      · rw [heq] at h
        cases hreader.symm.trans h
      · rw [heq] at h
        cases hreader.symm.trans h
      · rw [hsame, hreader] at h
        cases h
      · rw [heq]
        exact hheld

/-- A prompt reads on over releases. -/
theorem run_releases (h : s.reader = .prompt) (hps : ∀ r ∈ ps, r.isBreak) : s.run ps = s := by
  induction ps with
  | nil => rfl
  | cons r ps ih =>
    obtain ⟨hr, hps⟩ := List.forall_mem_cons.mp hps
    have hstep : s.step r = s := by
      rw [step]
      simp only [h, promptPass, if_pos hr]
    rw [run, List.foldl_cons, hstep]
    exact ih hps

/-- After the release of Ctrl, other releases leave it up. -/
theorem held_released {r : Press} {releases : List Press} (hr : r.sc = scCtrlBreak)
    (hreleases : ∀ r ∈ releases, r.isBreak) :
    held (pre ++ r :: releases) = false := by
  induction releases using List.reverseRecOn with
  | nil =>
    rw [held_snoc, hr]
    rfl
  | append_singleton releases p ih =>
    obtain ⟨hall, hp⟩ := List.forall_mem_append.mp hreleases
    have hmake : p.sc ≠ scCtrlMake := fun h => not_isBreak_of_sc (.inl h) (hp p (List.mem_singleton_self p))
    rw [← List.cons_append, ← List.append_assoc, held_snoc, if_neg hmake, ih hall]
    split <;> rfl

/-- What holds between the keys as long as no release is lost. -/
structure Kept (ed : Buffer) (ps : List Press) : Prop where
  keys : ((entered ed).run ps).reader = .keys → ((entered ed).run ps).ctrlHeld = held ps
  prompt : ((entered ed).run ps).reader = .prompt →
    (∃ pre q releases, ps = pre ++ q :: releases ∧ q.sc = scQ ∧ (∀ r ∈ releases, r.isBreak) ∧ held pre = true) ∧
      (held ps = true ∨ ∃ pre r releases, ps = pre ++ r :: releases ∧ ((entered ed).run pre).reader = .prompt ∧
        r.sc = scCtrlBreak ∧ ∀ r ∈ releases, r.isBreak)
  gone : LeftByTwo ed ps

theorem kept_of_keys (hr : ((entered ed).run ps).reader = .keys)
    (h : ((entered ed).run ps).ctrlHeld = held ps) :
    Kept ed ps where
  keys _ := h
  prompt hprompt := by cases hr.symm.trans hprompt
  gone hgone := by cases hr.symm.trans hgone

/-- A pass of the key loop keeps it. -/
theorem Kept.keys_snoc (h : Kept ed ps) (hr : ((entered ed).run ps).reader = .keys) (p : Press) :
    Kept ed (ps ++ [p]) := by
  have hheld := h.keys hr
  have hstep : (entered ed).run (ps ++ [p]) = ((entered ed).run ps).keyPass p := by
    rw [run_snoc, step]
    simp only [hr]
  obtain ⟨hsc, heq⟩ | ⟨hsc, heq⟩ | ⟨hmake, hbreak, ⟨hreader, hsame⟩ | ⟨hsc, hctrl, heq⟩⟩ :=
    keyPass_cases ((entered ed).run ps) p
  · refine kept_of_keys ?_ ?_
    · rw [hstep, heq]
      exact hr
    · rw [hstep, heq, held_snoc, if_pos hsc]
  · refine kept_of_keys ?_ ?_
    · rw [hstep, heq]
      exact hr
    · rw [hstep, heq, held_snoc, hsc]
      rfl
  · refine kept_of_keys ?_ ?_
    · rw [hstep, hreader, hr]
    · rw [hstep, hsame, held_snoc, if_neg hmake, if_neg hbreak, hheld]
  · rw [hctrl] at hheld
    have hread : ((entered ed).run (ps ++ [p])).reader =
      if ((entered ed).run ps).ed.dirty then .prompt else .gone := by
      rw [hstep, heq]
    cases hdirty : ((entered ed).run ps).ed.dirty with
    | true =>
      rw [hdirty, if_pos rfl] at hread
      refine ⟨fun hkeys => ?_, fun _ => ⟨⟨ps, p, [], rfl, hsc, by simp, hheld.symm⟩, .inl ?_⟩, fun hgone => ?_⟩
      · cases hread.symm.trans hkeys
      · rw [held_snoc, if_neg hmake, if_neg hbreak, ← hheld]
      · cases hread.symm.trans hgone
    | false =>
      rw [hdirty, if_neg Bool.false_ne_true] at hread
      refine ⟨fun hkeys => ?_, fun hprompt => ?_, fun _ hleft => ?_⟩
      · cases hread.symm.trans hkeys
      · cases hread.symm.trans hprompt
      · rw [hstep, heq] at hleft
        cases hdirty.symm.trans hleft

/-- So does a pass of the prompt, if the key that answers finds no release lost. -/
theorem Kept.prompt_snoc (h : Kept ed ps) (hr : ((entered ed).run ps).reader = .prompt) (p : Press)
    (hlose : ¬ LosesRelease ed (ps ++ [p])) : Kept ed (ps ++ [p]) := by
  have hctrl := ctrlHeld_of_prompt hr
  obtain ⟨⟨pre, q, releases, hps, hq, hreleases, hpre⟩, hnow⟩ := h.prompt hr
  have hstep : (entered ed).run (ps ++ [p]) = ((entered ed).run ps).promptPass p := by
    rw [run_snoc, step]
    simp only [hr]
  by_cases hbreak : p.isBreak
  · have hsame : (entered ed).run (ps ++ [p]) = (entered ed).run ps := by rw [hstep, promptPass, if_pos hbreak]
    have hmake : p.sc ≠ scCtrlMake := fun hsc => not_isBreak_of_sc (.inl hsc) hbreak
    have hread : ((entered ed).run (ps ++ [p])).reader = .prompt := by rw [hsame, hr]
    have hsnoc {l : List Press} (hl : ∀ r ∈ l, r.isBreak) : ∀ r ∈ l ++ [p], r.isBreak :=
      List.forall_mem_append.mpr ⟨hl, List.forall_mem_singleton.mpr hbreak⟩
    refine ⟨fun hkeys => ?_, fun _ => ⟨⟨pre, q, releases ++ [p], by simp [hps], hq, hsnoc hreleases, hpre⟩, ?_⟩,
      fun hgone => ?_⟩
    · cases hread.symm.trans hkeys
    · by_cases hsc : p.sc = scCtrlBreak
      · exact .inr ⟨ps, p, [], rfl, hr, hsc, by simp⟩
      · rw [held_snoc, if_neg hmake, if_neg hsc]
        obtain hheld | ⟨pre', r, releases', hps', hr', hsc', hreleases'⟩ := hnow
        · exact .inl hheld
        · exact .inr ⟨pre', r, releases' ++ [p], by simp [hps'], hr', hsc', hsnoc hreleases'⟩
    · cases hread.symm.trans hgone
  · have hsc : p.sc ≠ scCtrlBreak := fun hsc => hbreak (isBreak_of_sc hsc)
    rw [promptPass, if_neg hbreak] at hstep
    by_cases hmake : p.sc = scCtrlMake
    · have hne : ¬ (p.sc = scQ ∧ ((entered ed).run ps).ctrlHeld = true) := by
        rw [hmake]
        exact fun h => absurd h.1 (by decide)
      rw [if_neg hne] at hstep
      refine kept_of_keys (by rw [hstep]) ?_
      rw [hstep, held_snoc, if_pos hmake]
      exact hctrl
    · have hheld : held ps = true := by
        obtain hheld | ⟨pre', r, releases', hps', hr', hsc', hreleases'⟩ := hnow
        · exact hheld
        · exact absurd ⟨pre', r, releases', p, [], by rw [hps'], hr', hsc', hreleases', hbreak, hmake⟩ hlose
      by_cases hpq : p.sc = scQ
      · rw [if_pos ⟨hpq, hctrl⟩] at hstep
        refine ⟨fun hkeys => ?_, fun hprompt => ?_, fun _ _ => ?_⟩
        · rw [hstep] at hkeys
          cases hkeys
        · rw [hstep] at hprompt
          cases hprompt
        · exact ⟨pre, q, releases, p, [], by rw [hps], hq, hpq, hreleases, hpre, hps ▸ hheld⟩
      · rw [if_neg fun h => hpq h.1] at hstep
        refine kept_of_keys (by rw [hstep]) ?_
        rw [hstep, held_snoc, if_neg hmake, if_neg hsc, hheld]
        exact hctrl

theorem LosesRelease.append (h : LosesRelease ed pre) (post : List Press) : LosesRelease ed (pre ++ post) := by
  obtain ⟨pre', r, releases, p, rest, rfl, hprompt, hsc, hreleases, hp⟩ := h
  exact ⟨pre', r, releases, p, rest ++ post, by simp, hprompt, hsc, hreleases, hp⟩

theorem kept_of_not_losesRelease (h : ¬ LosesRelease ed ps) : Kept ed ps := by
  induction ps using List.reverseRecOn with
  | nil => exact kept_of_keys rfl rfl
  | append_singleton ps p ih =>
    have hkept := ih fun hlost => h (hlost.append [p])
    cases hr : ((entered ed).run ps).reader with
    | keys => exact hkept.keys_snoc hr p
    | prompt => exact hkept.prompt_snoc hr p h
    | gone =>
      have hsame : (entered ed).run (ps ++ [p]) = (entered ed).run ps := by
        rw [run_snoc, step]
        simp only [hr]
      have hread : ((entered ed).run (ps ++ [p])).reader = .gone := by rw [hsame, hr]
      refine ⟨fun hkeys => ?_, fun hprompt => ?_, fun _ hdirty => ?_⟩
      · cases hread.symm.trans hkeys
      · cases hread.symm.trans hprompt
      · rw [hsame] at hdirty
        obtain ⟨pre, q, releases, q', post, hps, hleft⟩ := hkept.gone hr hdirty
        exact ⟨pre, q, releases, q', post ++ [p], by simp [hps], hleft⟩

/-- The loops know the state of the Ctrl key at every key, and unsaved changes are only
left by Ctrl and q twice, if and only if no prompt reads the release of Ctrl in front
of the press of another key. -/
theorem ctrl_tracked_iff (ed : Buffer) (ps : List Press) : Tracks ed ps ∧ LeftByTwo ed ps ↔
    ¬ LosesRelease ed ps := by
  constructor
  · rintro ⟨htracks, -⟩ ⟨pre, r, releases, p, post, rfl, hprompt, hsc, hreleases, hp⟩
    have hall : ∀ x ∈ r :: releases, x.isBreak := List.forall_mem_cons.mpr ⟨isBreak_of_sc hsc, hreleases⟩
    have hrun : (entered ed).run (pre ++ r :: releases) = (entered ed).run pre := by
      rw [run_append, run_releases hprompt hall]
    have hctrl := htracks _ p post rfl hp (by rw [hrun, hprompt]; exact Reader.noConfusion)
    rw [hrun, ctrlHeld_of_prompt hprompt, held_released hsc hreleases] at hctrl
    cases hctrl
  · intro h
    refine ⟨?_, (kept_of_not_losesRelease h).gone⟩
    rintro pre p post rfl hp hread
    have hkept := kept_of_not_losesRelease fun hlost => h (hlost.append (p :: post))
    cases hr : ((entered ed).run pre).reader with
    | keys => exact hkept.keys hr
    | gone => exact absurd hr hread
    | prompt =>
      rw [ctrlHeld_of_prompt hr]
      obtain ⟨-, hheld | ⟨pre', r, releases, rfl, hr', hsc, hreleases⟩⟩ := hkept.prompt hr
      · exact hheld.symm
      · exact absurd ⟨pre', r, releases, p, post, by simp, hr', hsc, hreleases, hp⟩ h

/-- A letter is typed, Ctrl and q bring the prompt, Ctrl is let go and q pressed again. -/
def releasedAtPrompt : List Press :=
  [⟨0x1E, 97, false⟩, ⟨scCtrlMake, 0, false⟩, ⟨scQ, 113, false⟩, ⟨scCtrlBreak, 0, false⟩, ⟨scQ, 113, false⟩]

/-- The last q discards the letter without Ctrl. -/
theorem released_ctrl_discards : ((entered (.opened (fun _ => 0) [])).run releasedAtPrompt).reader = .gone ∧
    ((entered (.opened (fun _ => 0) [])).run releasedAtPrompt).ed.dirty = true ∧
    ¬ (Tracks (.opened (fun _ => 0) []) releasedAtPrompt ∧
      LeftByTwo (.opened (fun _ => 0) []) releasedAtPrompt) := by
  refine ⟨rfl, rfl, fun ⟨htracks, _⟩ => ?_⟩
  have hctrl := htracks (releasedAtPrompt.take 4) ⟨scQ, 113, false⟩ [] rfl ⟨by decide, by decide⟩ (by decide)
  cases hctrl

end Session
end GeckoOS.Editor
