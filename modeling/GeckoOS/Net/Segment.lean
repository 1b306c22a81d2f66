import GeckoOS.Lib.Runs
import GeckoOS.Net.Frames

/-! Stations with different addresses on one Ethernet segment. A frame that was sent
can reach every station at any time, any number of times or never, and in any order. -/
namespace GeckoOS.Net
open Lib Stack

variable {ι : Type*}

/-- A station calls `arp_request`, `icmp_send_echo_request` or `icmp_clear_reply`, or
it is handed a frame of station `j` at the start of `len` bytes at `data`. -/
inductive Action (ι : Type*) where
  | arpRequest (i : ι) (ip : UInt32)
  | ping (i : ι) (ip : UInt32) (id seq : UInt16)
  | clearReply (i : ι)
  | receive (i j : ι) (frame : List UInt8) (data : View) (len : UInt16)

namespace Action

def actor : Action ι → ι
  | .arpRequest i _ => i
  | .ping i _ _ _ => i
  | .clearReply i => i
  | .receive i _ _ _ _ => i

def run : Action ι → Stack → Stack
  | .arpRequest _ ip, s => s.arpRequest ip
  | .ping _ ip id seq, s => s.icmpSendEchoRequest ip id seq
  | .clearReply _, s => s.icmpClearReply
  | .receive _ _ _ data len, s => s.netHandlePacket data len

def Enabled (net : ι → Stack) : Action ι → Prop
  | .receive _ j frame data len => frame ∈ (net j).sent ∧ Carries frame data len
  | _ => True

end Action

def Step [DecidableEq ι] (net : ι → Stack) (a : Action ι) (net' : ι → Stack) : Prop :=
  a.Enabled net ∧ net' = Function.update net a.actor (a.run (net a.actor))

/-- Nothing was sent or received yet, and no two stations have the same address. -/
structure Start (home : ι → Stack) : Prop where
  addresses : Function.Injective fun i => (home i).netIp
  sent : ∀ i, (home i).sent = []
  events : ∀ i, (home i).events = []
  cache : ∀ i e, ((home i).arpCache e).valid = false
  reply : ∀ i, (home i).replyReceived = false

/-! ### Causes -/

/-- The echo request of `i` to `j`, and the reply of `j` to `i`. -/
def pingFrame (home : ι → Stack) (i j : ι) (id seq : UInt16) : List UInt8 :=
  messageFrame (home i) (home j).netMac (home j).netIp (pingMessage id seq)
def pongFrame (home : ι → Stack) (j i : ι) (id seq : UInt16) : List UInt8 :=
  messageFrame (home j) (home i).netMac (home i).netIp (pongMessage id seq)

/-- Station `i` is handed that frame of station `j`. -/
def Receives (as : List (Action ι)) (i j : ι) (frame : List UInt8) : Prop :=
  ∃ data len, .receive i j frame data len ∈ as

/-- Station `i` pinged `j`, which was handed the echo request afterwards. -/
def Pinged (home : ι → Stack) (as : List (Action ι)) (i j : ι) (id seq : UInt16) : Prop :=
  ∃ data len, [.ping i (home j).netIp id seq, .receive j i (pingFrame home i j id seq) data len].Sublist as

/-- The frames of station `i`, each with what made the station send it. -/
inductive Caused (home : ι → Stack) (as : List (Action ι)) (i : ι) : List UInt8 → Prop
  | asked {ip : UInt32} (h : .arpRequest i ip ∈ as) : Caused home as i (requestFrame (home i) ip)
  | pingUnresolved {ip : UInt32} {id seq : UInt16}
      (h : .ping i ip id seq ∈ as) : Caused home as i (requestFrame (home i) ip)
  | pongUnresolved {j : ι} {id seq : UInt16} (h : Pinged home as j i id seq) :
    Caused home as i (requestFrame (home i) (home j).netIp)
  | answer {j : ι} (h : Receives as i j (requestFrame (home j) (home i).netIp)) :
    Caused home as i (answerFrame (home i) (home j).netMac (home j).netIp)
  | ping {j : ι} {id seq : UInt16} (h : .ping i (home j).netIp id seq ∈ as) :
      Caused home as i (pingFrame home i j id seq)
  | pong {j : ι} {id seq : UInt16} (h : Pinged home as j i id seq) :
      Caused home as i (pongFrame home i j id seq)

/-- After its last `icmp_clear_reply`, station `i` was handed the reply to a ping of `j`. -/
def Replied (home : ι → Stack) (as : List (Action ι)) (i j : ι) (id seq : UInt16) : Prop :=
  ∃ before data len after, as = before ++ .receive i j (pongFrame home j i id seq) data len :: after ∧
    Pinged home before i j id seq ∧ .clearReply i ∉ after

variable {home net net' : ι → Stack} {as : List (Action ι)} {a : Action ι} {i j : ι} {id seq : UInt16}
  {frame : List UInt8} {data : View} {len : UInt16}

theorem Pinged.snoc (h : Pinged home as i j id seq) (a : Action ι) : Pinged home (as ++ [a]) i j id seq := by
  obtain ⟨data, len, h⟩ := h
  exact ⟨data, len, h.trans (List.sublist_append_left as [a])⟩

/-- Frames that are received were sent before. -/
theorem Pinged.received (h : .ping i (home j).netIp id seq ∈ as) (data : View) (len : UInt16) :
    Pinged home (as ++ [.receive j i (pingFrame home i j id seq) data len]) i j id seq :=
  ⟨data, len, (List.singleton_sublist.mpr h).append (List.Sublist.refl _)⟩

theorem Caused.snoc (h : Caused home as i frame) (a : Action ι) : Caused home (as ++ [a]) i frame := by
  cases h with
  | asked h => exact .asked (List.mem_append_left _ h)
  | pingUnresolved h => exact .pingUnresolved (List.mem_append_left _ h)
  | pongUnresolved h => exact .pongUnresolved (h.snoc a)
  | answer h =>
    obtain ⟨data, len, h⟩ := h
    exact .answer ⟨data, len, List.mem_append_left _ h⟩
  | ping h => exact .ping (List.mem_append_left _ h)
  | pong h => exact .pong (h.snoc a)

theorem Replied.snoc (h : Replied home as i j id seq) (ha : a ≠ .clearReply i) :
    Replied home (as ++ [a]) i j id seq := by
  obtain ⟨before, data, len, after, rfl, hpinged, hclear⟩ := h
  refine ⟨before, data, len, after ++ [a], by simp, hpinged, ?_⟩
  rw [List.mem_append, List.mem_singleton]
  rintro (h | h)
  · exact hclear h
  · exact ha h.symm

theorem Replied.received (h : Pinged home as i j id seq) (data : View) (len : UInt16) :
    Replied home (as ++ [.receive i j (pongFrame home j i id seq) data len]) i j id seq :=
  ⟨as, data, len, [], rfl, h, List.not_mem_nil⟩

/-! ### The invariant -/

/-- Every valid entry is a station, and no station has two. -/
structure CacheSound (home : ι → Stack) (cache : Fin 16 → ArpEntry) : Prop where
  station : ∀ e, (cache e).valid = true → ∃ j, (cache e).ip = (home j).netIp ∧ (cache e).mac = (home j).netMac
  distinct : ∀ e e', (cache e).valid = true → (cache e').valid = true → (cache e).ip = (cache e').ip → e = e'

/-- What is true of station `i` behind these actions. -/
structure Sound (home : ι → Stack) (as : List (Action ι)) (i : ι) (s : Stack) : Prop where
  same : SameStation s (home i)
  safe : s.Safe
  cache : CacheSound home s.arpCache
  sent : ∀ frame ∈ s.sent, Caused home as i frame
  reply : s.replyReceived = true → ∃ j id seq, Replied home as i j id seq

/-- What an action can do to its station. -/
structure Change (home : ι → Stack) (as : List (Action ι)) (i : ι) (s s' : Stack) : Prop where
  same : SameStation s' s
  safe : s'.Safe
  sent : s'.sent = s.sent ∨ ∃ frame, Caused home as i frame ∧ s'.sent = s.sent ++ [frame]
  cache : s'.arpCache = s.arpCache ∨ ∃ j, s'.arpCache = (s.cacheSender (home j).netIp (home j).netMac).arpCache
  reply : s'.replyReceived = true → ∃ j id seq, Replied home as i j id seq

theorem Start.sound (h : Start home) (i : ι) : Sound home [] i (home i) := by
  refine ⟨⟨rfl, rfl⟩, ?_, ⟨?_, ?_⟩, ?_, ?_⟩
  · intro e he
    rw [h.events i] at he
    cases he
  · intro e he
    rw [h.cache i e] at he
    cases he
  · intro e e' he
    rw [h.cache i e] at he
    cases he
  · intro frame hframe
    rw [h.sent i] at hframe
    cases hframe
  · intro hreply
    rw [h.reply i] at hreply
    cases hreply

/-- A station is cached. -/
theorem CacheSound.cacheSender {s : Stack} (h : CacheSound home s.arpCache) (j : ι) :
    CacheSound home (s.cacheSender (home j).netIp (home j).netMac).arpCache := by
  rw [cacheSender_arpCache]
  cases hslot : s.slot (home j).netIp with
  | none => exact h
  | some e =>
    rw [Option.elim_some]
    have hfree : ∀ e' ≠ e, (s.arpCache e').valid = true → (s.arpCache e').ip ≠ (home j).netIp := by
      intro e' hne hvalid hip
      rw [slot, Option.or_eq_some_iff] at hslot
      rcases hslot with hknown | ⟨hnone, -⟩
      · have hentry := findEntry_some _ hknown
        rw [Bool.and_eq_true, beq_iff_eq] at hentry
        exact hne (h.distinct e' e hvalid hentry.1 (hip.trans hentry.2.symm))
      · have hunknown := (findEntry_none s).mp hnone e'
        rw [hvalid, hip, beq_self_eq_true] at hunknown
        cases hunknown
    constructor
    · refine (Function.forall_update_iff s.arpCache fun _ x =>
        x.valid = true → ∃ k, x.ip = (home k).netIp ∧ x.mac = (home k).netMac).mpr ?_
      exact ⟨fun _ => ⟨j, rfl, rfl⟩, fun e' _ => h.station e'⟩
    · intro e₁ e₂
      by_cases h₁ : e₁ = e
      · by_cases h₂ : e₂ = e
        · exact fun _ _ _ => h₁.trans h₂.symm
        · rw [h₁, Function.update_self, Function.update_of_ne h₂]
          exact fun _ hvalid hip => absurd hip.symm (hfree e₂ h₂ hvalid)
      · by_cases h₂ : e₂ = e
        · rw [h₂, Function.update_self, Function.update_of_ne h₁]
          exact fun hvalid _ hip => absurd hip (hfree e₁ h₁ hvalid)
        · rw [Function.update_of_ne h₁, Function.update_of_ne h₂]
          exact h.distinct e₁ e₂

namespace Sound
variable {s : Stack}

theorem resolve (h : Sound home as i s) {ip : UInt32} {mac : Mac} (hmac : s.arpResolve ip = some mac) :
    ∃ j, (home j).netIp = ip ∧ (home j).netMac = mac := by
  rw [arpResolve, Option.map_eq_some_iff] at hmac
  obtain ⟨e, hfind, rfl⟩ := hmac
  have hentry := findEntry_some _ hfind
  rw [Bool.and_eq_true, beq_iff_eq] at hentry
  obtain ⟨j, hip, hmac⟩ := h.cache.station e hentry.1
  exact ⟨j, hip.symm.trans hentry.2, hmac.symm⟩

/-- Another station acts. -/
theorem other (h : Sound home as i s) (ha : a.actor ≠ i) : Sound home (as ++ [a]) i s := by
  refine ⟨h.same, h.safe, h.cache, fun frame hframe => (h.sent frame hframe).snoc a, fun hreply => ?_⟩
  obtain ⟨j, id, seq, hold⟩ := h.reply hreply
  refine ⟨j, id, seq, hold.snoc ?_⟩
  rintro rfl
  exact ha rfl

/-- The station itself acts. -/
theorem act {s' : Stack} (h : Sound home as i s) (hc : Change home (as ++ [a]) i s s') :
    Sound home (as ++ [a]) i s' := by
  refine ⟨⟨hc.same.ip.trans h.same.ip, hc.same.mac.trans h.same.mac⟩, hc.safe, ?_, ?_, hc.reply⟩
  · rcases hc.cache with hcache | ⟨j, hcache⟩
    · rw [hcache]
      exact h.cache
    · rw [hcache]
      exact h.cache.cacheSender j
  · intro frame hframe
    rcases hc.sent with hsent | ⟨new, hcaused, hsent⟩
    · rw [hsent] at hframe
      exact (h.sent frame hframe).snoc a
    · rw [hsent, List.mem_append, List.mem_singleton] at hframe
      rcases hframe with hframe | rfl
      · exact (h.sent frame hframe).snoc a
      · exact hcaused

/-- A reply that was received before counts until it is cleared. -/
theorem keeps (h : Sound home as i s) (ha : a ≠ .clearReply i) (hreply : s.replyReceived = true) :
    ∃ j id seq, Replied home (as ++ [a]) i j id seq := by
  obtain ⟨j, id, seq, hold⟩ := h.reply hreply
  exact ⟨j, id, seq, hold.snoc ha⟩

/-- `ip_send` sends the message to its station, or asks for its hardware address. -/
theorem ipFrame (h : Sound home as i s) (ip : UInt32) {message : List UInt8} (hlength : message.length = 20) :
    ipFrame s ip ipProtoIcmp message = requestFrame (home i) ip ∨
      ∃ j, (home j).netIp = ip ∧
        Net.ipFrame s ip ipProtoIcmp message = messageFrame (home i) (home j).netMac
          (home j).netIp message := by
  have hfit : message.length < 2^16 - 34 := by
    rw [hlength]
    decide
  have hframe := ipFrame_eq s ip hfit
  cases hmac : s.arpResolve ip with
  | none =>
    left
    rw [hframe, hmac, Option.elim_none, h.same.requestFrame]
  | some mac =>
    right
    obtain ⟨j, hip, hmac'⟩ := h.resolve hmac
    refine ⟨j, hip, ?_⟩
    rw [hframe, hmac, Option.elim_some, h.same.messageFrame, hip, hmac']

end Sound

/-! ### Actions -/

theorem Change.of_effect {s s' : Stack} {sent : List (List UInt8)} {cache : Fin 16 → ArpEntry} {reply : Bool}
    (heffect : s'.effect = (sent, cache, reply, s.overrun)) (hsame : SameStation s' s) (hsafe : s'.Safe)
    (hsent : sent = s.sent ∨ ∃ frame, Caused home as i frame ∧ sent = s.sent ++ [frame])
    (hcache : cache = s.arpCache ∨ ∃ j, cache = (s.cacheSender (home j).netIp (home j).netMac).arpCache)
    (hreply : reply = true → ∃ j id seq, Replied home as i j id seq) : Change home as i s s' := by
  simp only [Stack.effect, Prod.mk.injEq] at heffect
  obtain ⟨rfl, rfl, rfl, -⟩ := heffect
  exact ⟨hsame, hsafe, hsent, hcache, hreply⟩

/-- The station is handed a frame. -/
theorem Sound.receive {s : Stack} (hinj : Function.Injective fun i => (home i).netIp) (h : Sound home as i s)
    (hcaused : Caused home as j frame) (hcarried : Carries frame data len) :
    Change home (as ++ [.receive i j frame data len]) i s (s.netHandlePacket data len) := by
  have hsame := netHandlePacket_same s data len
  have hkeeps := h.keeps (a := .receive i j frame data len) (fun ha => by cases ha)
  have hrequest : ∀ ip, frame = requestFrame (home j) ip →
      Change home (as ++ [.receive i j frame data len]) i s (s.netHandlePacket data len) := by
    rintro ip rfl
    apply Change.of_effect (request_received hcarried) hsame (arpFrame_safe h.safe hcarried) _
      (.inr ⟨j, rfl⟩) hkeeps
    by_cases hip : ip = s.netIp
    · rw [if_pos hip, h.same.answerFrame]
      refine .inr ⟨_, .answer ⟨data, len, ?_⟩, rfl⟩
      rw [hip, h.same.ip]
      exact List.mem_append_right _ (List.mem_singleton.mpr rfl)
    · rw [if_neg hip]
      exact .inl rfl
  cases hcaused with
  | asked _ => exact hrequest _ rfl
  | pingUnresolved _ => exact hrequest _ rfl
  | pongUnresolved _ => exact hrequest _ rfl
  | @answer k _ =>
    have heffect := answer_received (s := s) hcarried
    by_cases hmac : Accepts s (home k).netMac
    · rw [if_pos hmac] at heffect
      exact .of_effect heffect hsame (arpFrame_safe h.safe hcarried) (.inl rfl) (.inr ⟨j, rfl⟩) hkeeps
    · rw [if_neg hmac] at heffect
      exact .of_effect heffect hsame (arpFrame_safe h.safe hcarried) (.inl rfl) (.inl rfl) hkeeps
  | @ping k id seq hping =>
    have heffect := ping_received (s := s) hcarried
    have hsafe := messageFrame_safe h.safe (pingMessage_length id seq) hcarried
    by_cases hours : Accepts s (home k).netMac ∧ (home k).netIp = s.netIp
    · rw [if_pos hours] at heffect
      obtain rfl : k = i := hinj (hours.2.trans h.same.ip)
      have hpinged := Pinged.received hping data len
      refine .of_effect heffect hsame hsafe (.inr ⟨_, ?_, rfl⟩) (.inl rfl) hkeeps
      rcases h.ipFrame (home j).netIp (pongMessage_length id seq) with hframe | ⟨k', hip, hframe⟩
      · rw [hframe]
        exact .pongUnresolved hpinged
      · obtain rfl : k' = j := hinj hip
        rw [hframe]
        exact .pong hpinged
    · rw [if_neg hours] at heffect
      exact .of_effect heffect hsame hsafe (.inl rfl) (.inl rfl) hkeeps
  | @pong k id seq hpinged =>
    have heffect := pong_received (s := s) hcarried
    have hsafe := messageFrame_safe h.safe (pongMessage_length id seq) hcarried
    by_cases hours : Accepts s (home k).netMac ∧ (home k).netIp = s.netIp
    · rw [if_pos hours] at heffect
      obtain rfl : k = i := hinj (hours.2.trans h.same.ip)
      exact .of_effect heffect hsame hsafe (.inl rfl) (.inl rfl) fun _ =>
        ⟨j, id, seq, .received hpinged data len⟩
    · rw [if_neg hours] at heffect
      exact .of_effect heffect hsame hsafe (.inl rfl) (.inl rfl) hkeeps

theorem change_of_enabled (hinj : Function.Injective fun i => (home i).netIp) (h : ∀ i, Sound home as i (net i))
    (ha : a.Enabled net) : Change home (as ++ [a]) a.actor (net a.actor) (a.run (net a.actor)) := by
  have hlast : a ∈ as ++ [a] := List.mem_append_right _ (List.mem_singleton.mpr rfl)
  cases a with
  | arpRequest i ip =>
    have hi := h i
    apply Change.of_effect (s := net i) (arpRequest_effect (net i) ip) ⟨rfl, rfl⟩
      (arpRequest_safe hi.safe ip) _ (.inl rfl)
    · exact hi.keeps fun ha => by cases ha
    · rw [hi.same.requestFrame]
      exact .inr ⟨_, .asked hlast, rfl⟩
  | ping i ip id seq =>
    have hi := h i
    apply Change.of_effect (s := net i) (icmpSendEchoRequest_effect (net i) ip id seq)
      (ipSend_same ⟨rfl, rfl⟩ ..)
      (icmpSendEchoRequest_safe hi.safe ip id seq) _ (.inl rfl)
    · exact hi.keeps fun ha => by cases ha
    · rcases hi.ipFrame ip (pingMessage_length id seq) with hframe | ⟨j, rfl, hframe⟩
      · rw [hframe]
        exact .inr ⟨_, .pingUnresolved hlast, rfl⟩
      · rw [hframe]
        exact .inr ⟨_, .ping hlast, rfl⟩
  | clearReply i =>
    have heffect : (net i).icmpClearReply.effect =
      ((net i).sent, (net i).arpCache, false, (net i).overrun) := rfl
    apply Change.of_effect (s := net i) heffect ⟨rfl, rfl⟩ (h i).safe (.inl rfl) (.inl rfl)
    intro hfalse
    cases hfalse
  | receive i j frame data len => exact (h i).receive hinj ((h j).sent frame ha.1) ha.2

/-! ### Runs -/

section Runs
variable [DecidableEq ι]

theorem sound_step (hinj : Function.Injective fun i => (home i).netIp)
    (h : ∀ i, Sound home as i (net i)) (hstep : Step net a net') :
    ∀ i, Sound home (as ++ [a]) i (net' i) := by
  obtain ⟨henabled, rfl⟩ := hstep
  apply (Function.forall_update_iff net fun i s => Sound home (as ++ [a]) i s).mpr
  exact ⟨(h a.actor).act (change_of_enabled hinj h henabled), fun k hk => (h k).other (Ne.symm hk)⟩

theorem sound_run (hstart : Start home) (hrun : Run Step home as net) : ∀ i, Sound home as i (net i) := by
  have h := hrun.history (I := fun as net => ∀ i, Sound home as i (net i))
    (sound_step hstart.addresses) hstart.sound
  rw [List.nil_append] at h
  exact h

end Runs
end GeckoOS.Net
