import GeckoOS.Net.Segment
import Mathlib.Data.Fintype.Option

/-! Endless runs of a segment on which two stations hear each other: what is asked is
answered at last. -/
namespace GeckoOS.Net
open Lib Stack

variable {ι : Type*} {home : ι → Stack} {as : List (Action ι)} {i j : ι} {id seq : UInt16}
  {s s' : Stack} {ip : UInt32}

/-! ### What stays known -/

def Knows (s : Stack) (ip : UInt32) : Prop := ∃ e, (s.arpCache e).valid = true ∧ (s.arpCache e).ip = ip

theorem knows_iff (s : Stack) (ip : UInt32) : Knows s ip ↔ ∃ mac, s.arpResolve ip = some mac := by
  rw [arpResolve]
  cases hfind : s.findEntry fun e => e.valid && e.ip == ip with
  | none =>
    rw [findEntry_none] at hfind
    constructor
    · rintro ⟨e, hvalid, hip⟩
      have hnot := hfind e
      rw [hvalid, hip, beq_self_eq_true] at hnot
      cases hnot
    · rintro ⟨mac, hmac⟩
      cases hmac
  | some e =>
    have hentry := findEntry_some _ hfind
    rw [Bool.and_eq_true, beq_iff_eq] at hentry
    exact ⟨fun _ => ⟨_, rfl⟩, fun _ => ⟨e, hentry⟩⟩

/-- No entry is lost. -/
theorem Knows.cacheSender (h : Knows s ip) (ip' : UInt32) (mac : Mac) : Knows (s.cacheSender ip' mac) ip := by
  obtain ⟨e, hvalid, hip⟩ := h
  unfold Knows
  rw [cacheSender_arpCache]
  cases hslot : s.slot ip' with
  | none => exact ⟨e, hvalid, hip⟩
  | some e' =>
    rw [Option.elim_some]
    by_cases hee : e = e'
    · subst hee
      refine ⟨e, by rw [Function.update_self], ?_⟩
      rw [Function.update_self]
      rw [slot, Option.or_eq_some_iff] at hslot
      rcases hslot with hknown | ⟨-, hfree⟩
      · have hentry := findEntry_some _ hknown
        rw [Bool.and_eq_true, beq_iff_eq] at hentry
        exact hentry.2.symm.trans hip
      · have hinvalid := findEntry_some _ hfree
        rw [hvalid] at hinvalid
        cases hinvalid
    · exact ⟨e, by rw [Function.update_of_ne hee]; exact ⟨hvalid, hip⟩⟩

theorem Change.knows (hc : Change home as i s s') (h : Knows s ip) : Knows s' ip := by
  rcases hc.cache with hcache | ⟨j, hcache⟩
  · unfold Knows
    rw [hcache]
    exact h
  · unfold Knows
    rw [hcache]
    exact h.cacheSender _ _

/-- With at most as many stations as entries there is a place for each. -/
theorem slot_isSome [Fintype ι] (hfew : Fintype.card ι ≤ 16) (h : CacheSound home s.arpCache) (j : ι) :
    ∃ e, s.slot (home j).netIp = some e := by
  cases hslot : s.slot (home j).netIp with
  | some e => exact ⟨e, rfl⟩
  | none =>
    exfalso
    rw [slot, Option.or_eq_none_iff, findEntry_none, findEntry_none] at hslot
    have hvalid : ∀ e, (s.arpCache e).valid = true := fun e => by simpa using hslot.2 e
    have hother : ∀ e, (s.arpCache e).ip ≠ (home j).netIp := fun e hip => by
      have hnot := hslot.1 e
      rw [hvalid e, hip, beq_self_eq_true] at hnot
      cases hnot
    choose station hip _ using fun e => h.station e (hvalid e)
    -- the sixteen cached stations and `j` are seventeen
    have hinj : Function.Injective fun o : Option (Fin 16) => o.elim j station := by
      intro o o' heq
      cases o with
      | none =>
        cases o' with
        | none => rfl
        | some e' => exact absurd (hip e') (by rw [← show j = station e' from heq]; exact hother e')
      | some e =>
        cases o' with
        | none => exact absurd (hip e) (by rw [show station e = j from heq]; exact hother e)
        | some e' =>
          have hsame : station e = station e' := heq
          exact congrArg some (h.distinct e e' (hvalid e) (hvalid e') (by rw [hip, hip, hsame]))
    have hcard := Fintype.card_le_of_injective _ hinj
    rw [Fintype.card_option, Fintype.card_fin] at hcard
    omega

theorem knows_sender [Fintype ι] (hfew : Fintype.card ι ≤ 16) (h : CacheSound home s.arpCache) (j : ι)
    (hcache : s'.arpCache = (s.cacheSender (home j).netIp (home j).netMac).arpCache) :
      Knows s' (home j).netIp := by
  obtain ⟨e, hslot⟩ := slot_isSome hfew h j
  rw [cacheSender_arpCache, hslot, Option.elim_some] at hcache
  refine ⟨e, ?_, ?_⟩
  · rw [hcache, Function.update_self]
  · rw [hcache, Function.update_self]

/-! ### The steps of an exchange -/

namespace Sound
variable {data : View} {len : UInt16}

/-- A station that is known resolves rightly. -/
theorem resolves (h : Sound home as i s) (hinj : Function.Injective fun i => (home i).netIp)
    (hk : Knows s (home j).netIp) :
    s.arpResolve (home j).netIp = some (home j).netMac := by
  obtain ⟨mac, hmac⟩ := (knows_iff _ _).mp hk
  obtain ⟨k, hip, rfl⟩ := h.resolve hmac
  obtain rfl : k = j := hinj hip
  exact hmac

/-- A packet to a station that is known goes out. -/
theorem ipFrame_known (h : Sound home as i s) (hinj : Function.Injective fun i => (home i).netIp)
    (hk : Knows s (home j).netIp)
    {message : List UInt8} (hlength : message.length = 20) :
    Net.ipFrame s (home j).netIp ipProtoIcmp message = messageFrame (home i) (home j).netMac
      (home j).netIp message := by
  rw [ipFrame_eq _ _ (by rw [hlength]; decide), h.resolves hinj hk, Option.elim_some, h.same.messageFrame]

theorem request_sent (h : Sound home as i s) (ip : UInt32) :
    (s.arpRequest ip).sent = s.sent ++ [requestFrame (home i) ip] := by
  rw [← h.same.requestFrame]
  exact congrArg Prod.fst (arpRequest_effect s ip)

/-- A request is answered, and its sender cached. -/
theorem request_heard [Fintype ι] (hfew : Fintype.card ι ≤ 16) (h : Sound home as j s)
    (hc : Carries (requestFrame (home i) (home j).netIp) data len) :
    (s.netHandlePacket data len).sent = s.sent ++ [answerFrame (home j) (home i).netMac (home i).netIp] ∧
      Knows (s.netHandlePacket data len) (home i).netIp := by
  have heffect := request_received (s := s) hc
  rw [if_pos h.same.ip.symm, h.same.answerFrame] at heffect
  exact ⟨congrArg Prod.fst heffect, knows_sender hfew h.cache i (congrArg (fun e => e.2.1) heffect)⟩

theorem answer_heard [Fintype ι] (hfew : Fintype.card ι ≤ 16) (h : Sound home as i s)
    (hc : Carries (answerFrame (home j) (home i).netMac (home i).netIp) data len) :
    (s.netHandlePacket data len).sent = s.sent ∧ Knows (s.netHandlePacket data len) (home j).netIp := by
  have hours : Accepts s (home i).netMac := h.same.mac ▸ accepts_self s
  have heffect := answer_received (s := s) hc
  rw [if_pos hours] at heffect
  exact ⟨congrArg Prod.fst heffect, knows_sender hfew h.cache j (congrArg (fun e => e.2.1) heffect)⟩

theorem ping_sent (h : Sound home as i s) (hinj : Function.Injective fun i => (home i).netIp)
    (hk : Knows s (home j).netIp)
    (id seq : UInt16) : (s.icmpSendEchoRequest (home j).netIp id seq).sent =
      s.sent ++ [pingFrame home i j id seq] := by
  rw [pingFrame, ← h.ipFrame_known hinj hk (pingMessage_length id seq)]
  exact congrArg Prod.fst (icmpSendEchoRequest_effect s (home j).netIp id seq)

/-- An echo request of a station that is known is replied to. -/
theorem ping_heard (h : Sound home as j s) (hinj : Function.Injective fun i => (home i).netIp)
    (hk : Knows s (home i).netIp)
    (hc : Carries (pingFrame home i j id seq) data len) :
    (s.netHandlePacket data len).sent = s.sent ++ [pongFrame home j i id seq] := by
  have hours : Accepts s (home j).netMac := h.same.mac ▸ accepts_self s
  have heffect := ping_received (s := s) hc
  rw [if_pos ⟨hours, h.same.ip.symm⟩, h.ipFrame_known hinj hk (pongMessage_length id seq)] at heffect
  exact congrArg Prod.fst heffect

theorem pong_heard (h : Sound home as i s) (hc : Carries (pongFrame home j i id seq) data len) :
    (s.netHandlePacket data len).sent = s.sent ∧ (s.netHandlePacket data len).replyReceived = true := by
  have hours : Accepts s (home i).netMac := h.same.mac ▸ accepts_self s
  have heffect := pong_received (s := s) hc
  rw [if_pos ⟨hours, h.same.ip.symm⟩] at heffect
  exact ⟨congrArg Prod.fst heffect, congrArg (fun e => e.2.2.1) heffect⟩

end Sound

/-! ### Endless runs -/

section Endless
variable [DecidableEq ι] {net : Nat → ι → Stack} {act : Nat → Action ι}

theorem step_knows {net net' : ι → Stack} {a : Action ι} (hinj : Function.Injective fun i => (home i).netIp)
    (h : ∀ i, Sound home as i (net i)) (hstep : Step net a net')
    (hk : Knows (net i) ip) : Knows (net' i) ip := by
  obtain ⟨henabled, rfl⟩ := hstep
  by_cases hi : i = a.actor
  · subst hi
    rw [Function.update_self]
    exact (change_of_enabled hinj h henabled).knows hk
  · rw [Function.update_of_ne hi]
    exact hk

structure Endless (home : ι → Stack) (net : Nat → ι → Stack) (act : Nat → Action ι) : Prop where
  start : net 0 = home
  step : ∀ t, Step (net t) (act t) (net (t + 1))

/-- Every frame that station `j` sends is handed to station `i` some time afterwards. -/
def Hears (net : Nat → ι → Stack) (act : Nat → Action ι) (i j : ι) : Prop :=
  ∀ t frame, (net (t + 1) j).sent = (net t j).sent ++ [frame] →
  ∃ t' > t, ∃ data len, act t' = .receive i j frame data len

namespace Endless
variable {t t' : Nat} {data : View} {len : UInt16} {frame : List UInt8}

theorem sound (h : Endless home net act) (hstart : Start home) (t : Nat) :
    ∀ i, Sound home ((List.range t).map act) i (net t i) := by
  induction t with
  | zero =>
    rw [h.start]
    exact hstart.sound
  | succ t ih =>
    rw [List.range_succ, List.map_append]
    exact sound_step hstart.addresses ih (h.step t)

theorem actor (h : Endless home net act) (t : Nat) :
    net (t + 1) (act t).actor = (act t).run (net t (act t).actor) := by
  rw [(h.step t).2, Function.update_self]

/-- What station `i` knows it knows from then on. -/
theorem knows (h : Endless home net act) (hstart : Start home) (hk : Knows (net t i) ip)
    (hle : t ≤ t') : Knows (net t' i) ip := by
  induction hle with
  | refl => exact hk
  | @step t' _ ih => exact step_knows hstart.addresses (h.sound hstart t') (h.step t') ih

/-- What the frame that is handed over at this time does. -/
theorem received (h : Endless home net act) (hact : act t = .receive i j frame data len) :
    Carries frame data len ∧ net (t + 1) i = (net t i).netHandlePacket data len := by
  have henabled := (h.step t).1
  have hactor := h.actor t
  rw [hact] at henabled hactor
  exact ⟨henabled.2, hactor⟩

/-- A request is heard and answered, and the answer is heard. -/
theorem request_answered [Fintype ι] (h : Endless home net act) (hstart : Start home)
    (hfew : Fintype.card ι ≤ 16)
    (hij : Hears net act i j) (hji : Hears net act j i) (hask : act t = .arpRequest i (home j).netIp) :
    ∃ T, Knows (net T i) (home j).netIp ∧ Knows (net T j) (home i).netIp := by
  have hsent : (net (t + 1) i).sent = (net t i).sent ++ [requestFrame (home i) (home j).netIp] := by
    have hactor := h.actor t
    rw [hask] at hactor
    exact (congrArg Stack.sent hactor).trans ((h.sound hstart t i).request_sent (home j).netIp)
  obtain ⟨t₁, -, data₁, len₁, hact₁⟩ := hji t _ hsent
  obtain ⟨hcarried₁, hnext₁⟩ := h.received hact₁
  obtain ⟨hanswer, hknows⟩ := (h.sound hstart t₁ j).request_heard hfew hcarried₁
  rw [← hnext₁] at hanswer hknows
  obtain ⟨t₂, hlt, data₂, len₂, hact₂⟩ := hij t₁ _ hanswer
  obtain ⟨hcarried₂, hnext₂⟩ := h.received hact₂
  have hheard := ((h.sound hstart t₂ i).answer_heard hfew hcarried₂).2
  rw [← hnext₂] at hheard
  exact ⟨t₂ + 1, hheard, h.knows hstart hknows (by omega)⟩

/-- A ping between stations that know each other is heard and replied to, and the reply is heard. -/
theorem ping_replied (h : Endless home net act) (hstart : Start home) (hij : Hears net act i j)
    (hji : Hears net act j i)
    (hki : Knows (net t i) (home j).netIp) (hkj : Knows (net t j) (home i).netIp)
    (hping : act t = .ping i (home j).netIp id seq) :
    ∃ t' > t, ∃ data len, act t' = .receive i j (pongFrame home j i id seq) data len ∧
    (net (t' + 1) i).replyReceived = true := by
  have hsent : (net (t + 1) i).sent = (net t i).sent ++ [pingFrame home i j id seq] := by
    have hactor := h.actor t
    rw [hping] at hactor
    exact (congrArg Stack.sent hactor).trans ((h.sound hstart t i).ping_sent hstart.addresses hki id seq)
  obtain ⟨t₁, hlt₁, data₁, len₁, hact₁⟩ := hji t _ hsent
  obtain ⟨hcarried₁, hnext₁⟩ := h.received hact₁
  have hkj₁ := h.knows hstart hkj (Nat.le_of_lt hlt₁)
  have hpong := (h.sound hstart t₁ j).ping_heard hstart.addresses hkj₁ hcarried₁
  rw [← hnext₁] at hpong
  obtain ⟨t₂, hlt₂, data₂, len₂, hact₂⟩ := hij t₁ _ hpong
  obtain ⟨hcarried₂, hnext₂⟩ := h.received hact₂
  have hreply := ((h.sound hstart t₂ i).pong_heard hcarried₂).2
  rw [← hnext₂] at hreply
  exact ⟨t₂, by omega, data₂, len₂, hact₂, hreply⟩

end Endless
end Endless
end GeckoOS.Net
