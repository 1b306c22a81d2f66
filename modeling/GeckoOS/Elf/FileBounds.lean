import GeckoOS.Elf.Loader

/-! When everything that the loader reads lies inside the file. -/
namespace GeckoOS.Elf
open Lib
variable {f : File} {answers : Answers} {m : View} {a idx fuel i n shdr : Nat} {s s' : State} {x : Int × State}

/-! Objects one behind the other. -/

/-- They lie inside the file if they fit in behind the first of them. -/
theorem holds_all_iff {b c k : Nat} (hb : b < 2^64) (hc : 0 < c) :
    (∀ j < k, f.Holds ⟨add64 b (c * j), c⟩) ↔ (0 < k → b + c * k ≤ f.size) := by
  have hsize := f.fits
  constructor
  · intro h hk
    induction k with
    | zero => exact absurd hk (Nat.lt_irrefl 0)
    | succ k ih =>
      have hstart : b + c * k < 2^64 := by
        by_cases hpos : 0 < k
        · have := ih (fun j hj => h j (Nat.lt_succ_of_lt hj)) hpos
          omega
        · rwa [Nat.eq_zero_of_not_pos hpos]
      have hlast : add64 b (c * k) + c ≤ f.size := h k (Nat.lt_succ_self k)
      rw [add64_eq hstart] at hlast
      rwa [Nat.mul_succ, ← Nat.add_assoc]
  · intro h j hj
    have hend := h (Nat.zero_lt_of_lt hj)
    have hle : c * (j + 1) ≤ c * k := Nat.mul_le_mul_left c hj
    rw [Nat.mul_succ] at hle
    show add64 b (c * j) + c ≤ f.size
    rw [add64_eq (by omega)]
    omega

/-- The headers of the first `k` sections lie inside the file. -/
def TableFits (f : File) (shdr k : Nat) : Prop := 0 < k → shdr + sizeofShdr * k ≤ f.size

theorem TableFits.section_eq {k j : Nat} (h : TableFits f shdr k) (hj : j < k) :
    add64 shdr (sizeofShdr * j) = shdr + 64 * j := by
  have hsize := f.fits
  have hend := h (Nat.zero_lt_of_lt hj)
  rw [sizeofShdr] at hend ⊢
  exact add64_eq (by omega)

theorem fillFrom_succ_right (f : File) (answers : Answers) (shdr : Nat) (m : View) (i k : Nat) :
    fillFrom f answers shdr m i (k + 1) = fill f answers shdr (fillFrom f answers shdr m i k) (i + k) := by
  rw [fillFrom, List.range'_concat, List.foldl_append, List.foldl_cons, List.foldl_nil, fillFrom, Nat.one_mul]

/-- A byte of the file in which no address is filled in. -/
theorem fillFrom_apply {k b : Nat} (hb : b < f.size)
    (h : ∀ j < k, Asks (fillFrom f answers shdr m i j) (add64 shdr (sizeofShdr * (i + j))) →
      8 ≤ sub64 b (add64 (add64 shdr (sizeofShdr * (i + j))) 24)) :
    fillFrom f answers shdr m i k b = m b := by
  induction k with
  | zero => rfl
  | succ k ih =>
    rw [fillFrom_succ_right, fill, ← ih fun j hj => h j (Nat.lt_succ_of_lt hj)]
    split
    · next hasks =>
      cases answers (i + k) with
      | none => rfl
      | some r =>
        show setOffset _ _ _ b = _
        rw [setOffset, if_neg (Nat.not_lt.mpr (h k (Nat.lt_succ_self k) hasks)), File.keep, if_pos hb]
    · rfl

/-- No store of the first stage changes what it asks of a section. -/
theorem asks_fillFrom_iff {k j : Nat} (h : TableFits f shdr k) (hj : j < k) :
    Asks (fillFrom f answers shdr m 0 j) (add64 shdr (sizeofShdr * j)) ↔
    Asks m (add64 shdr (sizeofShdr * j)) := by
  have hsize := f.fits
  have hend := h (Nat.zero_lt_of_lt hj)
  rw [sizeofShdr] at hend
  have hbyte : ∀ o, o < 24 ∨ 32 ≤ o → o < 64 →
    window (fillFrom f answers shdr m 0 j) (add64 shdr (sizeofShdr * j)) o =
      window m (add64 shdr (sizeofShdr * j)) o := by
    intro o ho hlt
    rw [window, window, h.section_eq hj, add64_eq (by omega)]
    refine fillFrom_apply (by omega) fun i hi _ => ?_
    rw [h.section_eq (by omega), add64_eq (by omega)]
    unfold sub64
    omega
  have htype : shType (fillFrom f answers shdr m 0 j) (add64 shdr (sizeofShdr * j)) =
    shType m (add64 shdr (sizeofShdr * j)) :=
    View.load32_congr fun o ho => hbyte (4 + o) (by omega) (by omega)
  have hflags : shFlags (fillFrom f answers shdr m 0 j) (add64 shdr (sizeofShdr * j)) =
    shFlags m (add64 shdr (sizeofShdr * j)) :=
    View.load64_congr fun o ho => hbyte (8 + o) (by omega) (by omega)
  have hcount : shSize (fillFrom f answers shdr m 0 j) (add64 shdr (sizeofShdr * j)) =
    shSize m (add64 shdr (sizeofShdr * j)) :=
    View.load64_congr fun o ho => hbyte (32 + o) (by omega) (by omega)
  rw [Asks, Asks, htype, hflags, hcount]

/-- Behind the first pass, `e_shnum` stays as it is. -/
theorem eShnum_fillFrom {k j : Nat} (h : TableFits f shdr k) (hj : j < k) :
    eShnum (fillFrom f answers shdr m 0 (j + 1)) = eShnum (fill f answers shdr m 0) := by
  have hsize := f.fits
  have hend := h (Nat.zero_lt_of_lt hj)
  rw [sizeofShdr] at hend
  have hbyte : ∀ o, o < 64 → fillFrom f answers shdr (fill f answers shdr m 0) 1 j o =
    fill f answers shdr m 0 o := by
    intro o ho
    refine fillFrom_apply (by omega) fun i hi _ => ?_
    rw [h.section_eq (by omega), add64_eq (by omega)]
    unfold sub64
    omega
  rw [fillFrom_succ, eShnum, eShnum, View.load16, View.load16, hbyte 60 (by decide), hbyte (60 + 1) (by decide)]

variable (f answers m) in
/-- The passes of the first stage. The first of them may change `e_shnum`. -/
def passes : Nat := if eShnum m = 0 then 0 else max 1 (eShnum (fill f answers (eShoff m) m 0))

variable (f answers m) in
/-- The memory with the addresses for the sections that ask for memory filled in. -/
def filled : View := fillFrom f answers (eShoff m) m 0 (passes f answers m)

variable (f answers m) in
def Granted : Prop := ∀ i < passes f answers m, Asks m (add64 (eShoff m) (sizeofShdr * i)) → (answers i).isSome

theorem passes_eq_zero (h : eShnum m = 0) : passes f answers m = 0 := if_pos h

theorem passes_eq (h : eShnum m ≠ 0) :
    passes f answers m = max 1 (eShnum (fill f answers (eShoff m) m 0)) := if_neg h

/-- The first pass is made if there is a section, each further one if the number that the
first one leaves behind says so. -/
theorem go_iff {k : Nat} (h : TableFits f (eShoff m) (k + 1)) :
    (∀ j < k + 1, j < eShnum (fillFrom f answers (eShoff m) m 0 j)) ↔
      0 < eShnum m ∧ ∀ j, 0 < j → j < k + 1 → j < eShnum (fill f answers (eShoff m) m 0) := by
  constructor
  · intro hgo
    refine ⟨hgo 0 (Nat.succ_pos k), fun j hpos hj => ?_⟩
    obtain ⟨j, rfl⟩ := Nat.exists_eq_succ_of_ne_zero (Nat.ne_of_gt hpos)
    rw [← eShnum_fillFrom h (j := j) (by omega)]
    exact hgo (j + 1) hj
  · rintro ⟨hzero, hrest⟩ j hj
    cases j with
    | zero => exact hzero
    | succ j =>
      rw [eShnum_fillFrom h (j := j) (by omega)]
      exact hrest (j + 1) (Nat.succ_pos j) hj

/-- The number of passes is the one at which the loop goes no further. -/
theorem eq_passes_iff {k : Nat} (h : TableFits f (eShoff m) k) : k = passes f answers m ↔
    (∀ j < k, j < eShnum (fillFrom f answers (eShoff m) m 0 j)) ∧
    eShnum (fillFrom f answers (eShoff m) m 0 k) ≤ k := by
  cases k with
  | zero =>
    have hempty : fillFrom f answers (eShoff m) m 0 0 = m := rfl
    rw [hempty]
    constructor
    · intro hk
      by_contra hstop
      have hne : eShnum m ≠ 0 := fun hz => hstop ⟨fun j hj => absurd hj (Nat.not_lt_zero j), Nat.le_of_eq hz⟩
      rw [passes_eq hne] at hk
      omega
    · exact fun hstop => (passes_eq_zero (Nat.le_zero.mp hstop.2)).symm
  | succ k =>
    rw [eShnum_fillFrom h (Nat.lt_succ_self k), go_iff h]
    constructor
    · intro hk
      have hne : eShnum m ≠ 0 := fun hz => by
        rw [passes_eq_zero hz] at hk
        cases hk
      rw [passes_eq hne] at hk
      exact ⟨⟨Nat.pos_of_ne_zero hne, fun j hpos hj => by omega⟩, by omega⟩
    · rintro ⟨⟨hpos, hrest⟩, hstop⟩
      rw [passes_eq (Nat.ne_of_gt hpos)]
      have hlast := hrest k
      omega

/-- As long as it keeps inside the file, the first stage makes these passes. -/
theorem passes_iff {k : Nat} (h : TableFits f (eShoff m) k) :
    Passes f answers (eShoff m) m 0 k ↔ k = passes f answers m ∧ Granted f answers m := by
  have hasks : ∀ j < k, Asks (fillFrom f answers (eShoff m) m 0 j) (add64 (eShoff m) (sizeofShdr * (0 + j))) ↔
      Asks m (add64 (eShoff m) (sizeofShdr * j)) := by
    intro j hj
    rw [Nat.zero_add]
    exact asks_fillFrom_iff h hj
  have hcount : k = passes f answers m ↔ _ := eq_passes_iff h
  constructor
  · intro hp
    obtain ⟨hgo, hstop, hgranted⟩ := hp
    simp only [Nat.zero_add] at hgo hstop
    have hk := hcount.mpr ⟨hgo, hstop⟩
    refine ⟨hk, fun j hj hask => ?_⟩
    rw [← hk] at hj
    have hanswer := hgranted j hj ((hasks j hj).mpr hask)
    rwa [Nat.zero_add] at hanswer
  · rintro ⟨hk, hgranted⟩
    obtain ⟨hgo, hstop⟩ := hcount.mp hk
    refine ⟨fun j hj => ?_, ?_, fun j hj hask => ?_⟩
    · rw [Nat.zero_add]
      exact hgo j hj
    · rwa [Nat.zero_add]
    · rw [Nat.zero_add]
      exact hgranted j (hk ▸ hj) ((hasks j hj).mp hask)

/-! What the whole command reads. -/

theorem holds_headers_iff {k : Nat} (hshdr : shdr < 2^64) :
    (∀ o ∈ headersFrom shdr 0 k, f.Holds o) ↔ TableFits f shdr k := by
  rw [headersFrom, List.forall_mem_map, TableFits, ← holds_all_iff hshdr (by decide)]
  simp only [List.mem_range'_1, Nat.zero_add, Nat.zero_le, true_and]

/-- The relocations of a section lie inside the file. -/
def RelocsFit (f : File) (m : View) (a : Nat) : Prop :=
  0 < shCount m a → shOffset m a + sizeofRel * shCount m a ≤ f.size

theorem holds_relocs_iff : (∀ o ∈ relocsFrom m a 0, f.Holds o) ↔ RelocsFit f m a := by
  have hoffset : shOffset m a < 2^64 := View.load64_lt _ _
  rw [relocsFrom, List.forall_mem_map, RelocsFit, ← holds_all_iff hoffset (by decide)]
  simp only [List.mem_range'_1, Nat.zero_add, Nat.zero_le, true_and, Nat.sub_zero]

theorem holds_stage2Reads_iff (hshdr : shdr < 2^64) : (∀ o ∈ stage2ReadsFrom m shdr 0, f.Holds o) ↔
    TableFits f shdr (eShnum m) ∧ ∀ i < eShnum m, shType m (add64 shdr (sizeofShdr * i)) = shtRel →
      RelocsFit f m (add64 shdr (sizeofShdr * i)) := by
  have hpass : ∀ a, (∀ o ∈ stage2Reads m a, f.Holds o) ↔
      f.Holds ⟨a, sizeofShdr⟩ ∧ (shType m a = shtRel → RelocsFit f m a) := by
    intro a
    rw [stage2Reads, List.forall_mem_cons]
    by_cases hrel : shType m a = shtRel
    · rw [if_pos hrel, forall_prop_of_true hrel, holds_relocs_iff]
    · rw [if_neg hrel]
      simp [hrel]
  rw [stage2ReadsFrom, List.forall_mem_flatMap, TableFits, ← holds_all_iff hshdr (by decide)]
  simp only [hpass, List.mem_range'_1, Nat.zero_add, Nat.zero_le, true_and, Nat.sub_zero]
  exact ⟨fun h => ⟨fun i hi => (h i hi).1, fun i hi => (h i hi).2⟩, fun h i hi => ⟨h.1 i hi, h.2 i hi⟩⟩

/-- What the file has to be like, and what has to be granted. -/
structure Sane (f : File) (answers : Answers) (m : View) : Prop where
  table : TableFits f (eShoff m) (passes f answers m)
  granted : Granted f answers m
  filledTable : TableFits f (eShoff (filled f answers m)) (eShnum (filled f answers m))
  relocations : ∀ i < eShnum (filled f answers m),
    shType (filled f answers m) (add64 (eShoff (filled f answers m)) (sizeofShdr * i)) = shtRel →
      Ends (filled f answers m) (add64 (eShoff (filled f answers m)) (sizeofShdr * i)) ∧
        RelocsFit f (filled f answers m) (add64 (eShoff (filled f answers m)) (sizeofShdr * i))

theorem sane_of_safe (h : Safe f answers m) : Sane f answers m := by
  obtain ⟨fuel, s, hrun, hholds⟩ := h
  rw [cmdRunelf, except_bind_eq_ok] at hrun
  obtain ⟨t, hstage1, hrun⟩ := hrun
  obtain ⟨k, -, hpasses, rfl⟩ := stage1Loop_eq_ok_iff.mp hstage1
  obtain ⟨r, hstage2, hresult⟩ := except_bind_eq_ok.mp hrun
  obtain ⟨⟨hends, -⟩, rfl⟩ := stage2Loop_eq_ok_iff.mp hstage2
  cases hresult
  obtain ⟨hheaders, hstage2⟩ := List.forall_mem_append.mp hholds
  have htable : TableFits f (eShoff m) k := (holds_headers_iff (View.load64_lt m 40)).mp hheaders
  obtain ⟨rfl, hgranted⟩ := (passes_iff htable).mp hpasses
  obtain ⟨hfilled, hrelocs⟩ := (holds_stage2Reads_iff (View.load64_lt _ 40)).mp hstage2
  exact ⟨htable, hgranted, hfilled, fun i hi hrel => ⟨(hends i (Nat.zero_le i) hi hrel).1, hrelocs i hi hrel⟩⟩

theorem eShnum_lt (m : View) : eShnum m < 2^16 := m.load16_lt 60

theorem passes_lt (f : File) (answers : Answers) (m : View) : passes f answers m < 2^16 := by
  have hlt := eShnum_lt (fill f answers (eShoff m) m 0)
  rw [passes]
  split <;> omega

theorem safe_of_sane (h : Sane f answers m) : Safe f answers m := by
  have hpasses := (passes_iff h.table).mpr ⟨rfl, h.granted⟩
  have hstage1 : elfLoadStage1 f answers (2^32) ⟨m, []⟩ =
      .ok ⟨filled f answers m, headersFrom (eShoff m) 0 (passes f answers m)⟩ :=
    stage1Loop_eq_ok_iff.mpr ⟨passes f answers m, Nat.lt_trans (passes_lt f answers m) (by decide),
      hpasses, rfl⟩
  have hstage2 : elfLoadStage2 f (2^32) ⟨filled f answers m, headersFrom (eShoff m) 0 (passes f answers m)⟩ =
      .ok (0, State.read ⟨filled f answers m, headersFrom (eShoff m) 0 (passes f answers m)⟩
        (stage2ReadsFrom (filled f answers m) (eShoff (filled f answers m)) 0)) := by
    refine stage2Loop_eq_ok_iff.mpr ⟨⟨fun i _ hi hrel => ?_, ?_⟩, rfl⟩
    · have hends := (h.relocations i hi hrel).1
      exact ⟨hends, hends.2⟩
    · have := eShnum_lt (filled f answers m)
      show eShnum (filled f answers m) - 0 < 2^32
      omega
  refine ⟨2^32, _, except_bind_eq_ok.mpr ⟨_, hstage1, except_bind_eq_ok.mpr ⟨_, hstage2, rfl⟩⟩, ?_⟩
  exact List.forall_mem_append.mpr ⟨(holds_headers_iff (View.load64_lt m 40)).mpr h.table,
    (holds_stage2Reads_iff (View.load64_lt _ 40)).mpr ⟨h.filledTable, fun i hi hrel =>
      (h.relocations i hi hrel).2⟩⟩

/-- Loading is safe exactly for sane files. -/
theorem loading_safe_iff (f : File) (answers : Answers) (m : View) : Safe f answers m ↔ Sane f answers m :=
  ⟨sane_of_safe, safe_of_sane⟩

/-- The ELF header in front of the section table is left alone, and so is a section up to its
offset, or as a whole if it asks for no memory. -/
theorem fillFrom_of_behind {k b : Nat} (hbehind : 64 ≤ eShoff m) (h : TableFits f (eShoff m) k) (hpos : 0 < k)
    (hb : b < 64 ∨ ∃ i < k, eShoff m + 64 * i ≤ b ∧ b < eShoff m + 64 * i + 64 ∧
      (b < eShoff m + 64 * i + 24 ∨ ¬ Asks m (add64 (eShoff m) (sizeofShdr * i)))) :
    fillFrom f answers (eShoff m) m 0 k b = m b := by
  have hsize := f.fits
  have hend := h hpos
  rw [sizeofShdr] at hend
  refine fillFrom_apply ?_ fun j hj hasks => ?_
  · rcases hb with hb | ⟨i, hi, -, hb, -⟩ <;> omega
  · rw [Nat.zero_add] at hasks ⊢
    have hwanted := (asks_fillFrom_iff h hj).mp hasks
    rw [h.section_eq hj, add64_eq (by omega)]
    unfold sub64
    rcases hb with hb | ⟨i, hi, hlo, hhi, hlt | hleft⟩
    · omega
    · omega
    · have hne : i ≠ j := fun heq => hleft (heq ▸ hwanted)
      omega

theorem passes_of_behind (hbehind : 64 ≤ eShoff m) (h : 0 < eShnum m → TableFits f (eShoff m) 1) :
    passes f answers m = eShnum m := by
  by_cases hzero : eShnum m = 0
  · rw [passes_eq_zero hzero, hzero]
  · have hbyte : ∀ b < 64, fill f answers (eShoff m) m 0 b = m b := fun b hb =>
      fillFrom_of_behind hbehind (h (Nat.pos_of_ne_zero hzero)) Nat.one_pos (.inl hb)
    have hcount : eShnum (fill f answers (eShoff m) m 0) = eShnum m := by
      rw [eShnum, eShnum, View.load16, View.load16, hbyte 60 (by decide), hbyte (60 + 1) (by decide)]
    rw [passes_eq hzero, hcount]
    omega

theorem TableFits.mono {k j : Nat} (h : TableFits f shdr k) (hj : j ≤ k) : TableFits f shdr j := by
  intro hpos
  have hend := h (Nat.lt_of_lt_of_le hpos hj)
  rw [sizeofShdr] at hend ⊢
  omega

section Behind
variable (hbehind : 64 ≤ eShoff m) (htable : TableFits f (eShoff m) (eShnum m))
include hbehind htable

theorem filled_of_behind : filled f answers m = fillFrom f answers (eShoff m) m 0 (eShnum m) := by
  rw [filled, passes_of_behind hbehind fun hpos => htable.mono hpos]

theorem header_filled : eShoff (filled f answers m) = eShoff m ∧ eShnum (filled f answers m) = eShnum m := by
  have hbyte : ∀ b < 64, filled f answers m b = m b := by
    intro b hb
    rw [filled_of_behind hbehind htable]
    by_cases hpos : 0 < eShnum m
    · exact fillFrom_of_behind hbehind htable hpos (.inl hb)
    · rw [Nat.eq_zero_of_not_pos hpos]
      rfl
  constructor
  · exact View.load64_congr fun o ho => hbyte (40 + o) (by omega)
  · rw [eShnum, eShnum, View.load16, View.load16, hbyte 60 (by decide), hbyte (60 + 1) (by decide)]

theorem section_filled {o : Nat} (hi : i < eShnum m)
    (ho : o < 24 ∨ o < 64 ∧ ¬ Asks m (add64 (eShoff m) (sizeofShdr * i))) :
    window (filled f answers m) (add64 (eShoff m) (sizeofShdr * i)) o =
      window m (add64 (eShoff m) (sizeofShdr * i)) o := by
  have hsize := f.fits
  have hend := htable (Nat.zero_lt_of_lt hi)
  have hlt : o < 64 := by omega
  rw [sizeofShdr] at hend
  rw [window, window, htable.section_eq hi, add64_eq (by omega), filled_of_behind hbehind htable]
  refine fillFrom_of_behind hbehind htable (Nat.zero_lt_of_lt hi) (.inr ⟨i, hi, by omega, by omega, ?_⟩)
  rcases ho with ho | ⟨-, hleft⟩
  · exact .inl (by omega)
  · exact .inr hleft

theorem shType_filled (hi : i < eShnum m) :
    shType (filled f answers m) (add64 (eShoff m) (sizeofShdr * i)) =
      shType m (add64 (eShoff m) (sizeofShdr * i)) :=
  View.load32_congr fun o ho => section_filled hbehind htable hi (.inl (by omega))

/-- Sections with relocations are not touched. -/
theorem relocations_filled (hi : i < eShnum m) (hrel : shType m (add64 (eShoff m) (sizeofShdr * i)) = shtRel) :
    (Ends (filled f answers m) (add64 (eShoff m) (sizeofShdr * i)) ∧
      RelocsFit f (filled f answers m) (add64 (eShoff m) (sizeofShdr * i))) ↔
    Ends m (add64 (eShoff m) (sizeofShdr * i)) ∧ RelocsFit f m (add64 (eShoff m) (sizeofShdr * i)) := by
  have hleft : ¬ Asks m (add64 (eShoff m) (sizeofShdr * i)) :=
    fun hasks => absurd (hasks.1.symm.trans hrel) (by decide)
  have hfield : ∀ p, p + 8 ≤ 64 → (window (filled f answers m) (add64 (eShoff m) (sizeofShdr * i))).load64 p =
      (window m (add64 (eShoff m) (sizeofShdr * i))).load64 p := fun p hp =>
    View.load64_congr fun o ho => section_filled hbehind htable hi (.inr ⟨by omega, hleft⟩)
  simp only [Ends, RelocsFit, shCount, shSize, shEntsize, shOffset, hfield 24 (by decide),
    hfield 32 (by decide), hfield 56 (by decide)]

end Behind

/-- Where the section table lies behind the ELF header, all that counts is in the file. -/
theorem sane_iff_of_behind (hbehind : 64 ≤ eShoff m) : Sane f answers m ↔
    TableFits f (eShoff m) (eShnum m) ∧
    (∀ i < eShnum m, Asks m (add64 (eShoff m) (sizeofShdr * i)) → (answers i).isSome) ∧
    ∀ i < eShnum m, shType m (add64 (eShoff m) (sizeofShdr * i)) = shtRel →
      Ends m (add64 (eShoff m) (sizeofShdr * i)) ∧ RelocsFit f m (add64 (eShoff m) (sizeofShdr * i)) := by
  constructor
  · intro h
    have hfirst : 0 < eShnum m → TableFits f (eShoff m) 1 := fun hpos => h.table.mono (by
      rw [passes_eq (Nat.ne_of_gt hpos)]
      omega)
    have hpasses : passes f answers m = eShnum m := passes_of_behind hbehind hfirst
    have htable : TableFits f (eShoff m) (eShnum m) := hpasses ▸ h.table
    obtain ⟨hshoff, hshnum⟩ : eShoff (filled f answers m) = eShoff m ∧ eShnum (filled f answers m) = eShnum m :=
      header_filled hbehind htable
    refine ⟨htable, fun i hi => h.granted i (hpasses.symm ▸ hi), fun i hi hrel => ?_⟩
    have hrelocs := h.relocations i (hshnum.symm ▸ hi)
    rw [hshoff, shType_filled hbehind htable hi, relocations_filled hbehind htable hi hrel] at hrelocs
    exact hrelocs hrel
  · rintro ⟨htable, hgranted, hrelocs⟩
    have hpasses : passes f answers m = eShnum m := passes_of_behind hbehind fun hpos => htable.mono hpos
    obtain ⟨hshoff, hshnum⟩ : eShoff (filled f answers m) = eShoff m ∧ eShnum (filled f answers m) = eShnum m :=
      header_filled hbehind htable
    refine ⟨hpasses.symm ▸ htable, fun i hi => hgranted i (hpasses ▸ hi), ?_, fun i hi hrel => ?_⟩
    · rwa [hshoff, hshnum]
    · rw [hshnum] at hi
      rw [hshoff, shType_filled hbehind htable hi] at hrel
      rw [hshoff, relocations_filled hbehind htable hi hrel]
      exact hrelocs i hi hrel

/-- The sections of a file with one header, of type SHT_REL and otherwise 0. -/
def zeroEntsize : View := fun i => if i = 40 then 64 else if i = 60 then 1 else if i = 68 then 9 else 0

/-- The size of its entries is divided by. -/
theorem zeroEntsize_unsafe : ¬ Safe ⟨0x200010, 128, by decide⟩ (fun _ => none) zeroEntsize := by
  intro hsafe
  have hvalues : 0 < eShnum (filled ⟨0x200010, 128, by decide⟩ (fun _ => none) zeroEntsize) ∧
      shType (filled ⟨0x200010, 128, by decide⟩ (fun _ => none) zeroEntsize)
        (add64 (eShoff (filled ⟨0x200010, 128, by decide⟩ (fun _ => none) zeroEntsize))
          (sizeofShdr * 0)) = shtRel ∧
      shEntsize (filled ⟨0x200010, 128, by decide⟩ (fun _ => none) zeroEntsize)
        (add64 (eShoff (filled ⟨0x200010, 128, by decide⟩ (fun _ => none) zeroEntsize))
          (sizeofShdr * 0)) = 0 := by
    decide +kernel
  exact ((sane_of_safe hsafe).relocations 0 hvalues.1 hvalues.2.1).1.1 hvalues.2.2

end GeckoOS.Elf
