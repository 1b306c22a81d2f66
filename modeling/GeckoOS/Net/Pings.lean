import GeckoOS.Net.Delivery

/-! What the stations of a segment can rely on, with a run of two stations. -/
namespace GeckoOS.Net
open Lib Stack

section Courses
variable {ι : Type*} [DecidableEq ι] {home : ι → Stack} {act : Nat → Action ι}

/-- The run in which these actions are taken one after the other. -/
def course (home : ι → Stack) (act : Nat → Action ι) : Nat → ι → Stack
  | 0 => home
  | t + 1 => Function.update (course home act t) (act t).actor ((act t).run (course home act t (act t).actor))

theorem endless_course (h : ∀ t, (act t).Enabled (course home act t)) : Endless home (course home act) act :=
  ⟨rfl, fun t => ⟨h t, rfl⟩⟩

/-- The frame is handed over alone. -/
def deliver (i j : ι) (frame : List UInt8) : Action ι :=
  .receive i j frame (.ofBytes frame) (.ofNat frame.length)

theorem carries_alone {frame : List UInt8} (h : frame.length < 2^16) :
    Carries frame (.ofBytes frame) (.ofNat frame.length) := by
  constructor
  · rw [UInt16.toNat_ofNat', Nat.mod_eq_of_lt h]
  · exact fun _ _ => rfl

end Courses

/-! ### Two stations -/

/-- 10.0.2.15, which asks for 10.0.2.2 and then pings it over and over, every frame being
handed over at once. -/
def pair (gateway : Bool) : Stack :=
  emptyStack (if gateway then 0x0A000202 else 0x0A00020F) fun _ => if gateway then 0x54 else 0x52

def pairAct : Nat → Action Bool
  | 0 => .arpRequest false (pair true).netIp
  | 1 => deliver true false (requestFrame (pair false) (pair true).netIp)
  | 2 => deliver false true (answerFrame (pair true) (pair false).netMac (pair false).netIp)
  | t + 3 =>
    if t % 3 = 0 then .ping false (pair true).netIp 0x1234 0
    else if t % 3 = 1 then deliver true false (pingFrame pair false true 0x1234 0)
    else deliver false true (pongFrame pair true false 0x1234 0)

abbrev pairNet : Nat → Bool → Stack := course pair pairAct

theorem pair_start : Start pair := by
  refine ⟨?_, fun _ => rfl, fun _ => rfl, fun _ _ => rfl, fun _ => rfl⟩
  intro b b' heq
  cases b <;> cases b' <;> first | rfl | exact absurd heq (by decide)

/-- The action can be taken, and what it sends is handed to the other station next. -/
def Prompt (t : Nat) : Prop :=
  (pairAct t).Enabled (pairNet t) ∧
    ∀ b frame, (pairNet (t + 1) b).sent = (pairNet t b).sent ++ [frame] → pairAct (t + 1) = deliver (!b) b frame

/-- At this time the two stations are in order and know each other. -/
structure Acquainted (t : Nat) : Prop where
  sound : ∃ as, ∀ b, Sound pair as b (pairNet t b)
  knows : ∀ b, Knows (pairNet t b) (pair !b).netIp

variable {t : Nat} {b : Bool} {frame : List UInt8}

theorem pairNet_actor (h : (pairAct t).actor = b) : pairNet (t + 1) b = (pairAct t).run (pairNet t b) := by
  subst h
  exact Function.update_self ..

theorem pairNet_other (h : (pairAct t).actor = !b) : pairNet (t + 1) b = pairNet t b := by
  apply Function.update_of_ne
  rw [h]
  cases b <;> decide

theorem prompt_silent (hen : (pairAct t).Enabled (pairNet t)) (hactor : (pairAct t).actor = b)
    (hsent : ((pairAct t).run (pairNet t b)).sent = (pairNet t b).sent) : Prompt t := by
  refine ⟨hen, fun b' frame heq => ?_⟩
  exfalso
  have hsame : (pairNet (t + 1) b').sent = (pairNet t b').sent := by
    by_cases hb : b' = b
    · rw [hb, pairNet_actor hactor, hsent]
    · rw [pairNet_other (b := b') (by rw [hactor]; cases b <;> cases b' <;> simp_all)]
  rw [hsame] at heq
  simpa using congrArg List.length heq

theorem prompt_sends (hen : (pairAct t).Enabled (pairNet t)) (hactor : (pairAct t).actor = b)
    (hsent : ((pairAct t).run (pairNet t b)).sent = (pairNet t b).sent ++ [frame])
    (hnext : pairAct (t + 1) = deliver (!b) b frame)
    (hlen : frame.length < 2^16) : Prompt t ∧ (pairAct (t + 1)).Enabled (pairNet (t + 1)) := by
  refine ⟨⟨hen, fun b' frame' heq => ?_⟩, ?_⟩
  · by_cases hb : b' = b
    · rw [hb, pairNet_actor hactor, hsent] at heq
      rw [hb, hnext, List.singleton_inj.mp (List.append_cancel_left heq)]
    · exfalso
      rw [pairNet_other (b := b') (by rw [hactor]; cases b <;> cases b' <;> simp_all)] at heq
      simpa using congrArg List.length heq
  · rw [hnext]
    refine ⟨?_, carries_alone hlen⟩
    rw [pairNet_actor hactor, hsent]
    exact List.mem_append_right _ (List.mem_singleton.mpr rfl)

theorem pairNet_sound (h : ∃ as, ∀ b, Sound pair as b (pairNet t b)) (hen : (pairAct t).Enabled (pairNet t)) :
    ∃ as, ∀ b, Sound pair as b (pairNet (t + 1) b) := by
  obtain ⟨as, h⟩ := h
  exact ⟨_, sound_step pair_start.addresses h ⟨hen, rfl⟩⟩

theorem Acquainted.next (h : Acquainted t) (hen : (pairAct t).Enabled (pairNet t)) : Acquainted (t + 1) := by
  obtain ⟨as, hsound⟩ := id h.sound
  exact ⟨pairNet_sound h.sound hen, fun b => step_knows pair_start.addresses hsound ⟨hen, rfl⟩ (h.knows b)⟩

theorem pair_starts : Prompt 0 ∧ Prompt 1 ∧ Prompt 2 ∧ Acquainted 3 := by
  have hfew : Fintype.card Bool ≤ 16 := by decide
  have hs₀ : ∃ as, ∀ b, Sound pair as b (pairNet 0 b) := ⟨[], pair_start.sound⟩
  obtain ⟨as₀, hsound₀⟩ := id hs₀
  obtain ⟨hprompt₀, hen₁⟩ :=
    prompt_sends (t := 0) (b := false) trivial rfl ((hsound₀ false).request_sent _) rfl (arpFrame_lt ..)
  have hs₁ := pairNet_sound hs₀ hprompt₀.1
  obtain ⟨as₁, hsound₁⟩ := id hs₁
  obtain ⟨hsent₁, hknows₁⟩ := (hsound₁ true).request_heard hfew hen₁.2
  obtain ⟨hprompt₁, hen₂⟩ := prompt_sends (t := 1) (b := true) hen₁ rfl hsent₁ rfl (arpFrame_lt ..)
  have hs₂ := pairNet_sound hs₁ hen₁
  obtain ⟨as₂, hsound₂⟩ := id hs₂
  obtain ⟨hsent₂, hknows₂⟩ := (hsound₂ false).answer_heard hfew hen₂.2
  have hprompt₂ := prompt_silent (t := 2) (b := false) hen₂ rfl hsent₂
  have hfalse : pairNet 3 false = (pairAct 2).run (pairNet 2 false) := pairNet_actor rfl
  have htrue : pairNet 3 true = (pairAct 1).run (pairNet 1 true) :=
    (pairNet_other rfl).trans (pairNet_actor rfl)
  refine ⟨hprompt₀, hprompt₁, hprompt₂, pairNet_sound hs₂ hen₂, fun b => ?_⟩
  cases b with
  | false => exact hfalse ▸ hknows₂
  | true => exact htrue ▸ hknows₁

theorem pairAct_ping (m : Nat) : pairAct (3 * m + 3) = .ping false (pair true).netIp 0x1234 0 := by
  have hmod : 3 * m % 3 = 0 := by omega
  rw [pairAct, if_pos hmod]

theorem pairAct_request (m : Nat) : pairAct (3 * m + 1 + 3) =
    deliver true false (pingFrame pair false true 0x1234 0) := by
  have hne : ¬ (3 * m + 1) % 3 = 0 := by omega
  have hmod : (3 * m + 1) % 3 = 1 := by omega
  rw [pairAct, if_neg hne, if_pos hmod]

theorem pairAct_reply (m : Nat) : pairAct (3 * m + 2 + 3) =
    deliver false true (pongFrame pair true false 0x1234 0) := by
  have hne : ¬ (3 * m + 2) % 3 = 0 := by omega
  have hne' : ¬ (3 * m + 2) % 3 = 1 := by omega
  rw [pairAct, if_neg hne, if_neg hne']

/-- A ping, its request and its reply. -/
theorem pair_round (m : Nat) (h : Acquainted (3 * m + 3)) :
    Prompt (3 * m + 3) ∧ Prompt (3 * m + 4) ∧ Prompt (3 * m + 5) ∧ Acquainted (3 * m + 6) ∧
      (pairNet (3 * m + 6) false).replyReceived = true := by
  have hinj := pair_start.addresses
  have hlt₁ := messageFrame_lt (pair false) (pair true).netMac (pair true).netIp (pingMessage_length 0x1234 0)
  have hlt₂ := messageFrame_lt (pair true) (pair false).netMac (pair false).netIp (pongMessage_length 0x1234 0)
  have hping := pairAct_ping m
  have hrequest := pairAct_request m
  have hreply := pairAct_reply m
  obtain ⟨as, hsound⟩ := h.sound
  have hsent : ((pairAct (3 * m + 3)).run (pairNet (3 * m + 3) false)).sent =
      (pairNet (3 * m + 3) false).sent ++ [pingFrame pair false true 0x1234 0] := by
    rw [hping]
    exact (hsound false).ping_sent hinj (h.knows false) 0x1234 0
  obtain ⟨hprompt₀, hen₁⟩ :=
    prompt_sends (b := false) (by rw [hping]; trivial) (by rw [hping]; rfl) hsent hrequest hlt₁
  have h₁ := h.next hprompt₀.1
  obtain ⟨as₁, hsound₁⟩ := h₁.sound
  have hsent₁ : ((pairAct (3 * m + 4)).run (pairNet (3 * m + 4) true)).sent =
      (pairNet (3 * m + 4) true).sent ++ [pongFrame pair true false 0x1234 0] := by
    rw [hrequest]
    exact (hsound₁ true).ping_heard hinj (h₁.knows true) (carries_alone hlt₁)
  obtain ⟨hprompt₁, hen₂⟩ := prompt_sends (b := true) hen₁ (by rw [hrequest]; rfl) hsent₁ hreply hlt₂
  have h₂ := h₁.next hen₁
  obtain ⟨as₂, hsound₂⟩ := h₂.sound
  obtain ⟨hsent₂, hreplied⟩ := (hsound₂ false).pong_heard (carries_alone hlt₂)
  have hactor₂ : (pairAct (3 * m + 5)).actor = false := by
    rw [hreply]
    rfl
  have hprompt₂ := prompt_silent (t := 3 * m + 5) (b := false) hen₂ hactor₂ (by rw [hreply]; exact hsent₂)
  refine ⟨hprompt₀, hprompt₁, hprompt₂, h₂.next hen₂, ?_⟩
  rw [pairNet_actor hactor₂, hreply]
  exact hreplied

theorem pair_acquainted (m : Nat) : Acquainted (3 * m + 3) := by
  induction m with
  | zero => exact pair_starts.2.2.2
  | succ m ih => exact (pair_round m ih).2.2.2.1

theorem pair_prompt (t : Nat) : Prompt t := by
  obtain ⟨h₀, h₁, h₂, -⟩ := pair_starts
  by_cases h : t < 3
  · obtain rfl | rfl | rfl : t = 0 ∨ t = 1 ∨ t = 2 := by omega
    · exact h₀
    · exact h₁
    · exact h₂
  · obtain ⟨hround₀, hround₁, hround₂, -⟩ := pair_round ((t - 3) / 3) (pair_acquainted _)
    obtain heq | heq | heq : t = 3 * ((t - 3) / 3) + 3 ∨ t = 3 * ((t - 3) / 3) + 4 ∨
      t = 3 * ((t - 3) / 3) + 5 := by omega
    · exact heq ▸ hround₀
    · exact heq ▸ hround₁
    · exact heq ▸ hround₂

theorem pair_endless : Endless pair pairNet pairAct := endless_course fun t => (pair_prompt t).1

/-- Each station hears the other. -/
theorem pair_hears (b : Bool) : Hears pairNet pairAct (!b) b := by
  intro t frame hsent
  exact ⟨t + 1, Nat.lt_succ_self t, _, _, (pair_prompt t).2 b frame hsent⟩

theorem pair_run (t : Nat) : Run Step pair ((List.range t).map pairAct) (pairNet t) := by
  induction t with
  | zero => exact .nil _
  | succ t ih =>
    rw [List.range_succ, List.map_append]
    exact ih.append (.cons (pair_endless.step t) (.nil _))

section Segments
variable {ι : Type*} [DecidableEq ι] {home net : ι → Stack} {as : List (Action ι)} {i : ι}

/-- Whatever happens on the segment: no store leaves its buffer and no length wraps, every
address resolves to the station that has it, and every frame is a request, an answer, an echo
request or its reply that was called for. -/
theorem segment_sound (hstart : Start home) (hrun : Run Step home as net) (i : ι) :
    (net i).Safe ∧
    (∀ ip mac, (net i).arpResolve ip = some mac → ∃ j, (home j).netIp = ip ∧ (home j).netMac = mac) ∧
    ∀ frame ∈ (net i).sent, Caused home as i frame := by
  have h := sound_run hstart hrun i
  exact ⟨h.safe, fun ip mac => h.resolve, h.sent⟩

/-- Behind a ping and its reply. -/
theorem segment_sound_pair : (pairNet 6 true).Safe ∧ ∀ frame ∈ (pairNet 6 true).sent,
    Caused pair ((List.range 6).map pairAct) true frame := by
  have h := segment_sound pair_start (pair_run 6) true
  exact ⟨h.1, h.2.2⟩

/-- `icmp_got_reply` is true only behind the reply of a station to a ping of it. -/
theorem reply_answers_ping (hstart : Start home) (hrun : Run Step home as net)
    (hreply : (net i).replyReceived = true) :
    ∃ j id seq, Replied home as i j id seq :=
  (sound_run hstart hrun i).reply hreply

theorem reply_answers_ping_pair : ∃ j id seq, Replied pair ((List.range 6).map pairAct) false j id seq :=
  reply_answers_ping pair_start (pair_run 6) (pair_round 0 (pair_acquainted 0)).2.2.2.2

variable {net : Nat → ι → Stack} {act : Nat → Action ι} {j : ι}

/-- On a segment of at most 16 stations, if two of them hear each other and the first asks
for the other's hardware address, then from some time on it resolves, and every ping of it
is followed by the reply. -/
theorem pings_answered [Fintype ι] (hstart : Start home) (hrun : Endless home net act)
    (hfew : Fintype.card ι ≤ 16)
    (hij : Hears net act i j) (hji : Hears net act j i) (hask : ∃ t, act t = .arpRequest i (home j).netIp) :
    ∃ T, ∀ t ≥ T, (net t i).arpResolve (home j).netIp = some (home j).netMac ∧
      ∀ id seq, act t = .ping i (home j).netIp id seq →
        ∃ t' > t, ∃ data len, act t' = .receive i j (pongFrame home j i id seq) data len ∧
          (net (t' + 1) i).replyReceived = true := by
  obtain ⟨t₀, hask⟩ := hask
  obtain ⟨T, hki, hkj⟩ := hrun.request_answered hstart hfew hij hji hask
  refine ⟨T, fun t hle => ?_⟩
  have hki' := hrun.knows hstart hki hle
  have hkj' := hrun.knows hstart hkj hle
  have hsound := hrun.sound hstart t i
  exact ⟨hsound.resolves hstart.addresses hki', fun id seq hping =>
    hrun.ping_replied hstart hij hji hki' hkj' hping⟩

end Segments

theorem pings_answered_pair : ∃ T, ∀ m, T ≤ 3 * m + 3 →
    ∃ t' > 3 * m + 3, (pairNet (t' + 1) false).replyReceived = true := by
  obtain ⟨T, h⟩ := pings_answered pair_start pair_endless (by decide) (pair_hears true)
    (pair_hears false) ⟨0, rfl⟩
  refine ⟨T, fun m hle => ?_⟩
  obtain ⟨t', hlt, -, -, -, hreply⟩ := (h _ hle).2 0x1234 0 (pairAct_ping m)
  exact ⟨t', hlt, hreply⟩

end GeckoOS.Net
