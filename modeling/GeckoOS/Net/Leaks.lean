import GeckoOS.Net.Bounds
import Mathlib.Data.Fintype.Card

/-! What handling a packet does with bytes behind the received frame. Two
memories that agree on the frame are compared by the frames sent, the ARP
cache, the reply flag and what was copied over the variables behind a buffer. -/
namespace GeckoOS.Net
open Lib Stack

/-- The two memories have the same first `n` bytes. -/
def Agree (n : Nat) (d d' : View) : Prop := ∀ i < n, d' i = d i

/-- Of `d`, only the first `n` bytes decide on `f d`. -/
def Confined {β : Type} (n : Nat) (f : View → β) (d : View) : Prop := ∀ d', Agree n d d' → f d' = f d

/-- What others can see of the stack, and what a copy left behind the end of its buffer. -/
def Stack.effect (s : Stack) : List (List UInt8) × (Fin 16 → ArpEntry) × Bool × Option (Buf × List UInt8) :=
  (s.sent, s.arpCache, s.replyReceived, s.overrun)

section Views
variable {β : Type} {n o : Nat} {d d' : View} {f g : View → β}

/-- The first `n` bytes of `d`, followed by those of `e`. -/
private def fill (n : Nat) (d e : View) : View := fun i => if i < n then d i else e i

private theorem agree_fill (n : Nat) (d e : View) : Agree n d (fill n d e) := fun _ hi => if_pos hi

private theorem fill_new {e : View} {i : Nat} (h : i < n → d i = e i) : fill n d e i = e i := by
  unfold fill
  split
  · next hi => exact h hi
  · rfl

theorem Agree.mono {m : Nat} (h : Agree n d d') (hm : m ≤ n) : Agree m d d' :=
  fun i hi => h i (by omega)

theorem Agree.shift (h : Agree n d d') (o : Nat) : Agree (n - o) (d.shift o) (d'.shift o) :=
  fun i hi => h (o + i) (by omega)

theorem Agree.load16 (h : Agree n d d') (ho : o + 2 ≤ n) : d'.load16 o = d.load16 o := by
  unfold View.load16
  rw [h o (by omega), h (o + 1) (by omega)]

theorem Agree.load32 (h : Agree n d d') (ho : o + 4 ≤ n) : d'.load32 o = d.load32 o := by
  unfold View.load32
  rw [h.load16 (by omega), h.load16 (by omega)]

theorem Agree.ipAt (h : Agree n d d') (ho : o + 4 ≤ n) : ipAt d' o = ipAt d o := by
  unfold Net.ipAt
  rw [h.load32 ho]

theorem Agree.macAt (h : Agree n d d') (ho : o + 6 ≤ n) : macAt d' o = macAt d o := by
  funext i
  exact h (o + i) (by omega)

theorem confined_of_const {b : β} (h : ∀ d', Agree n d d' → f d' = b) : Confined n f d :=
  fun d' hd => (h d' hd).trans (h d fun _ _ => rfl).symm

theorem not_confined {d₁ d₂ : View} (h₁ : Agree n d d₁) (h₂ : Agree n d d₂) (hne : f d₁ ≠ f d₂) :
    ¬ Confined n f d :=
  fun h => hne ((h d₁ h₁).trans (h d₂ h₂).symm)

theorem confined_congr (h : ∀ d', Agree n d d' → f d' = g d') : Confined n f d ↔ Confined n g d :=
  forall_congr' fun d' => imp_congr_right fun hd => by rw [h d' hd, h d fun _ _ => rfl]

/-- Behind a part of the frame that is there, only the rest counts. -/
theorem confined_shift (ho : o ≤ n) : Confined n (fun d => f (d.shift o)) d ↔
    Confined (n - o) f (d.shift o) := by
  constructor
  · intro h e he
    have hd : Agree n d fun i => if i < o then d i else e (i - o) := by
      intro i hi
      dsimp only
      split
      · rfl
      · rw [he (i - o) (by omega)]
        exact congrArg d (by omega)
    have hshift : View.shift (fun i => if i < o then d i else e (i - o)) o = e := by
      funext i
      show (if o + i < o then d (o + i) else e (o + i - o)) = e i
      rw [if_neg (by omega), Nat.add_sub_cancel_left]
    rw [← hshift]
    exact h _ hd
  · intro h d' hd
    exact h _ (hd.shift o)

end Views

/-! ### Addresses in network order -/

/-- The `j`-th byte of an address on the wire. -/
def ipByte (ip : UInt32) (j : Nat) : UInt8 := .ofNat (ip.toNat / 2^(24 - 8 * j))

theorem bswap16_load16 (d : View) (o : Nat) : bswap16 (d.load16 o) = (d o).toNat * 2^8 + (d (o + 1)).toNat := by
  have h0 := (d o).toNat_lt
  have h1 := (d (o + 1)).toNat_lt
  unfold bswap16 View.load16
  omega

private theorem ipAt_toNat (d : View) (o : Nat) :
    (ipAt d o).toNat = (d o).toNat * 2^24 + (d (o+1)).toNat * 2^16 + (d (o+2)).toNat * 2^8 +
      (d (o+3)).toNat := by
  have h0 := (d o).toNat_lt
  have h1 := (d (o + 1)).toNat_lt
  have h2 := (d (o + 2)).toNat_lt
  have h3 := (d (o + 3)).toNat_lt
  have hlow : d.load32 o % 2^16 = d.load16 o := by unfold View.load32 View.load16; omega
  have hhigh : d.load32 o / 2^16 = d.load16 (o+2) := by unfold View.load32 View.load16; omega
  rw [ipAt, UInt32.toNat_ofNat', bswap32, hlow, hhigh, bswap16_load16, bswap16_load16]
  rw [show o + 2 + 1 = o + 3 by omega]
  omega

theorem forall_lt_four {p : Nat → Prop} : (∀ j < 4, p j) ↔ p 0 ∧ p 1 ∧ p 2 ∧ p 3 := by
  constructor
  · intro h
    exact ⟨h 0 (by decide), h 1 (by decide), h 2 (by decide), h 3 (by decide)⟩
  · rintro ⟨h0, h1, h2, h3⟩ j hj
    match j, hj with
    | 0, _ => exact h0
    | 1, _ => exact h1
    | 2, _ => exact h2
    | 3, _ => exact h3

theorem ipAt_eq_iff (d : View) (o : Nat) (ip : UInt32) : ipAt d o = ip ↔ ∀ j < 4, d (o + j) = ipByte ip j := by
  have hip := ip.toNat_lt
  have h0 := (d o).toNat_lt
  have h1 := (d (o + 1)).toNat_lt
  have h2 := (d (o + 2)).toNat_lt
  have h3 := (d (o + 3)).toNat_lt
  rw [forall_lt_four, ← UInt32.toNat_inj, ipAt_toNat]
  simp only [← UInt8.toNat_inj, ipByte, UInt8.toNat_ofNat', Nat.add_zero]
  omega

/-- The bytes received of the address at `o` are those of `ip`. -/
def MayBe (n : Nat) (data : View) (o : Nat) (ip : UInt32) : Prop :=
  ∀ j < 4, o + j < n → data (o + j) = ipByte ip j

theorem mayBe_of_agree {n o : Nat} {d d' : View} (h : Agree n d d') : MayBe n d o (ipAt d' o) := by
  intro j hj hn
  rw [← h _ hn]
  exact (ipAt_eq_iff d' o _).mp rfl j hj

/-- Bytes that were not received can complete an address. -/
private theorem ipAt_fill {n o : Nat} {d e : View} {ip : UInt32} (h : MayBe n d o ip) (he : ipAt e o = ip) :
    ipAt (fill n d e) o = ip := by
  rw [ipAt_eq_iff] at he ⊢
  intro j hj
  rw [fill_new, he j hj]
  intro hn
  rw [he j hj]
  exact h j hj hn

/-! ### Frames -/

def ethHead (s : Stack) (dst : Mac) (type : Nat) : List UInt8 :=
  List.ofFn dst ++ List.ofFn s.netMac ++ bytes16 (bswap16 type)

theorem ethHead_length (s : Stack) (dst : Mac) (type : Nat) : (ethHead s dst type).length = 14 := by
  simp [ethHead]

/-- The frame of `net_send_frame`. -/
def ethFrame (s : Stack) (dst : Mac) (type : Nat) (payload : List UInt8) : List UInt8 :=
  (ethHead s dst type ++ payload).take (add16 14 payload.length)

variable (s : Stack)

theorem copyThen_fits {buf : Buf} {off : Nat} {bytes : List UInt8} (h : off + bytes.length ≤ buf.size)
    (rest : Stack → Stack) :
    s.copyThen buf off bytes rest = rest (s.record [.store buf off bytes.length]) := if_pos h

theorem copyThen_overruns {buf : Buf} {off : Nat} {bytes : List UInt8} (h : ¬ off + bytes.length ≤ buf.size)
    (rest : Stack → Stack) :
    s.copyThen buf off bytes rest =
      { s.record [.store buf off bytes.length] with overrun := some (buf, bytes) } := if_neg h

theorem netSendFrame_effect (dst : Mac) (type : Nat) {payload : List UInt8}
    (h : 14 + payload.length ≤ Buf.ethTx.size) :
    (s.netSendFrame dst type payload).effect =
      (s.sent ++ [ethFrame s dst type payload], s.arpCache, s.replyReceived, s.overrun) := by
  unfold netSendFrame
  dsimp only
  rw [copyThen_fits _ h]
  rfl

theorem arpPacket_fits (op : Nat) (smac tmac : Mac) (sip tip : Nat) :
    14 + (arpPacket op smac sip tmac tip).length ≤ Buf.ethTx.size := by
  rw [arpPacket_length]
  decide

/-! ### ARP -/

theorem arpReply_effect (p : View) :
    (s.arpReply p).effect = (s.sent ++ [ethFrame s (macAt p 8) etherTypeArp
      (arpPacket arpOpReply s.netMac (bswap32 s.netIp.toNat) (macAt p 8) (bswap32 (p.load32 14)))],
        s.arpCache, s.replyReceived, s.overrun) := netSendFrame_effect _ _ _ (arpPacket_fits ..)

/-- The entry that a sender's address goes to. -/
def Stack.slot (ip : UInt32) : Option (Fin 16) :=
  (s.findEntry fun e => e.valid && e.ip == ip).or (s.findEntry fun e => !e.valid)

theorem findEntry_some {p : ArpEntry → Bool} {i : Fin 16} (h : s.findEntry p = some i) :
    p (s.arpCache i) = true :=
  List.find?_some (p := fun i => p (s.arpCache i)) h

theorem findEntry_none {p : ArpEntry → Bool} : s.findEntry p = none ↔ ∀ i, p (s.arpCache i) = false := by
  simp [findEntry, List.find?_eq_none]

theorem cacheSender_arpCache (ip : UInt32) (mac : Mac) :
    (s.cacheSender ip mac).arpCache =
      (s.slot ip).elim s.arpCache fun i => Function.update s.arpCache i ⟨ip, mac, true⟩ := by
  unfold cacheSender slot
  cases hknown : s.findEntry fun e => e.valid && e.ip == ip with
  | some i =>
    have hi := findEntry_some s hknown
    simp only [Bool.and_eq_true, beq_iff_eq] at hi
    show Function.update s.arpCache i ⟨(s.arpCache i).ip, mac, (s.arpCache i).valid⟩ = _
    rw [hi.1, hi.2]
    rfl
  | none =>
    cases s.findEntry fun e => !e.valid with
    | some i => rfl
    | none => rfl

theorem cacheSender_sent (ip : UInt32) (mac : Mac) : (s.cacheSender ip mac).sent = s.sent := by
  unfold cacheSender
  split
  · rfl
  · split <;> rfl

theorem cacheSender_replyReceived (ip : UInt32) (mac : Mac) :
    (s.cacheSender ip mac).replyReceived = s.replyReceived := by
  unfold cacheSender
  split
  · rfl
  · split <;> rfl

theorem cacheSender_overrun (ip : UInt32) (mac : Mac) : (s.cacheSender ip mac).overrun = s.overrun := by
  unfold cacheSender
  split
  · rfl
  · split <;> rfl

private theorem op_eq_iff (p : View) {k : Nat} (hk : k < 2^8) :
    bswap16 (p.load16 6) = k ↔ p 6 = 0 ∧ p 7 = .ofNat k := by
  have h6 := (p 6).toNat_lt
  have h7 := (p 7).toNat_lt
  rw [bswap16_load16, ← UInt8.toNat_inj, ← UInt8.toNat_inj, show 6 + 1 = 7 from rfl]
  simp only [UInt8.toNat_ofNat', UInt8.toNat_zero]
  omega

/-- A request for our address is answered, and every request or reply is cached. -/
theorem arpHandle_effect (p : View) :
    (s.arpHandle p).effect =
      (if p 6 = 0 ∧ p 7 = 1 ∧ ipAt p 24 = s.netIp then (s.arpReply p).sent else s.sent,
        if p 6 = 0 ∧ (p 7 = 1 ∨ p 7 = 2) then (s.cacheSender (ipAt p 14) (macAt p 8)).arpCache else s.arpCache,
        s.replyReceived, s.overrun) := by
  have hreq := op_eq_iff p (k := arpOpRequest) (by decide)
  have hrep := op_eq_iff p (k := arpOpReply) (by decide)
  have hany : p 6 = 0 ∧ (p 7 = 1 ∨ p 7 = 2) ↔
      bswap16 (p.load16 6) = arpOpRequest ∨ bswap16 (p.load16 6) = arpOpReply := by
    rw [hreq, hrep, ← and_or_left]
    rfl
  have hask : p 6 = 0 ∧ p 7 = 1 ∧ ipAt p 24 = s.netIp ↔
      bswap16 (p.load16 6) = arpOpRequest ∧ ipAt p 24 = s.netIp := by
    rw [hreq, and_assoc]
    rfl
  simp only [hany, hask, arpHandle]
  by_cases hours : bswap16 (p.load16 6) = arpOpRequest ∧ ipAt p 24 = s.netIp
  · rw [if_pos hours, if_pos (Or.inl hours.1), if_pos hours, if_pos (Or.inl hours.1)]
    simp only [Stack.effect, cacheSender_sent, cacheSender_replyReceived, cacheSender_overrun,
      cacheSender_arpCache]
    rfl
  · rw [if_neg hours, if_neg hours]
    split
    · simp only [Stack.effect, cacheSender_sent, cacheSender_replyReceived, cacheSender_overrun]
    · rfl

/-- The handler of an ARP packet of which `n` bytes were received looks at no others. -/
def ArpConfined (n : Nat) (p : View) : Prop :=
  (6 < n ∧ p 6 ≠ 0) ∨
  7 < n ∧
    (p 7 = 1 → 27 < n ∨ ¬ MayBe n p 24 s.netIp) ∧
    (p 7 = 2 → 17 < n ∨ 13 < n ∧ (∀ i, (s.arpCache i).valid = true) ∧
      ∀ ip mac, MayBe n p 14 ip → s.arpResolve ip = some mac → mac = macAt p 8)

variable {s} {n : Nat} {p : View}

/-- Where the sender's address is incomplete, the cache is full and has no other
hardware address for it. -/
private theorem cacheSender_full (hfull : ∀ i, (s.arpCache i).valid = true) {ip : UInt32} {mac : Mac}
    (h : ∀ mac', s.arpResolve ip = some mac' → mac' = mac) : (s.cacheSender ip mac).arpCache = s.arpCache := by
  have hfree : (s.findEntry fun e => !e.valid) = none := by
    rw [findEntry_none]
    intro i
    rw [hfull i, Bool.not_true]
  rw [cacheSender_arpCache, slot, hfree, Option.or_none]
  cases hknown : s.findEntry fun e => e.valid && e.ip == ip with
  | none => rfl
  | some i =>
    have hi := findEntry_some s hknown
    simp only [Bool.and_eq_true, beq_iff_eq] at hi
    have hmac : (s.arpCache i).mac = mac := h _ (by rw [arpResolve, hknown, Option.map_some])
    show Function.update s.arpCache i ⟨ip, mac, true⟩ = s.arpCache
    rw [← hmac, ← hi.2, ← hi.1, Function.update_eq_self]

private theorem arp_confined (h : ArpConfined s n p) : Confined n (fun p => (s.arpHandle p).effect) p := by
  rcases h with ⟨h6, hop⟩ | ⟨h7, hreq, hrep⟩
  · apply confined_of_const (b := s.effect)
    intro d hd
    have hop' : d 6 ≠ 0 := by rwa [hd 6 h6]
    simp only [arpHandle_effect, hop', false_and, if_false]
    rfl
  · by_cases hone : p 7 = 1
    · have hlong : 17 < n := by
        rcases hreq hone with h | h
        · omega
        · by_contra hn
          exact h fun j _ hj => absurd hj (by omega)
      have hask : ∀ d, Agree n p d →
          (if d 6 = 0 ∧ d 7 = 1 ∧ ipAt d 24 = s.netIp then (s.arpReply d).sent else s.sent) =
            if p 6 = 0 ∧ p 7 = 1 ∧ ipAt p 24 = s.netIp then (s.arpReply p).sent else s.sent := by
        intro d hd
        have hsent : (s.arpReply d).sent = (s.arpReply p).sent := by
          simp only [arpReply, hd.macAt (o := 8) (by omega), hd.load32 (o := 14) (by omega)]
        rcases hreq hone with h | h
        · rw [hd 6 (by omega), hd 7 h7, hd.ipAt (by omega), hsent]
        · have hne : ∀ e, Agree n p e → ipAt e 24 ≠ s.netIp := fun e he heq => h (heq ▸ mayBe_of_agree he)
          rw [if_neg (fun hc => hne d hd hc.2.2), if_neg fun hc => hne p (fun _ _ => rfl) hc.2.2]
      intro d hd
      simp only [arpHandle_effect]
      rw [hask d hd, hd 6 (by omega), hd 7 h7, hd.ipAt (by omega), hd.macAt (by omega)]
    · have hcached : ∀ d, Agree n p d → d 7 = 2 →
          (s.cacheSender (ipAt d 14) (macAt d 8)).arpCache =
            (s.cacheSender (ipAt p 14) (macAt p 8)).arpCache := by
        intro d hd h2
        rcases hrep (by rwa [← hd 7 h7]) with h | ⟨h13, hfull, hmac⟩
        · rw [hd.ipAt (by omega), hd.macAt (by omega)]
        · rw [hd.macAt (by omega), cacheSender_full hfull fun mac => hmac _ mac (mayBe_of_agree hd),
            cacheSender_full hfull fun mac => hmac _ mac (mayBe_of_agree fun _ _ => rfl)]
      intro d hd
      have h1 : d 7 ≠ 1 := by rwa [hd 7 h7]
      simp only [arpHandle_effect, hone, h1, false_and, and_false, if_false, false_or]
      rw [hd 6 (by omega), hd 7 h7]
      by_cases h2 : p 6 = 0 ∧ p 7 = 2
      · rw [if_pos h2, if_pos h2, hcached d hd (by rw [hd 7 h7, h2.2])]
      · rw [if_neg h2, if_neg h2]

/-- An ARP packet with these fields. -/
private def arpBytes (op mac5 : UInt8) (senderIp targetIp : UInt32) : View := fun i =>
  if i = 7 then op
  else if i = 13 then mac5
  else if i < 14 then 0
  else if i < 18 then ipByte senderIp (i - 14)
  else ipByte targetIp (i - 24)

private theorem arpBytes_sender (op mac5 : UInt8) (sip tip : UInt32) :
    ipAt (arpBytes op mac5 sip tip) 14 = sip := by
  rw [ipAt_eq_iff, forall_lt_four]
  exact ⟨rfl, rfl, rfl, rfl⟩

private theorem arpBytes_target (op mac5 : UInt8) (sip tip : UInt32) :
    ipAt (arpBytes op mac5 sip tip) 24 = tip := by
  rw [ipAt_eq_iff, forall_lt_four]
  exact ⟨rfl, rfl, rfl, rfl⟩

/-- With its last byte missing, an address can be one that the cache does not hold. -/
private theorem exists_uncached (s : Stack) (p : View) (hn : n ≤ 17) :
    ∃ ip, MayBe n p 14 ip ∧ ∀ i, (s.arpCache i).ip ≠ ip := by
  by_contra hall
  push Not at hall
  have hcached : ∀ b : Fin 256, ∃ i, (s.arpCache i).ip = ipAt (fill 17 p fun _ => .ofFin b) 14 := fun b =>
    hall _ (mayBe_of_agree ((agree_fill 17 p _).mono hn))
  choose g hg using hcached
  have hinj : Function.Injective g := by
    intro a b hab
    have heq := (hg a).symm.trans ((congrArg (fun i => (s.arpCache i).ip) hab).trans (hg b))
    have hlast := ((ipAt_eq_iff _ 14 _).mp heq 3 (by decide)).trans
      ((ipAt_eq_iff _ 14 _).mp rfl 3 (by decide)).symm
    exact congrArg UInt8.toFin hlast
  simpa using Fintype.card_le_of_injective g hinj

private theorem arpReply_sent_ne (d : View) : (s.arpReply d).sent ≠ s.sent := by
  have hsent := congrArg Prod.fst (arpReply_effect s d)
  intro h
  simpa using h.symm.trans hsent

/-- An unanswered and an answered request are told apart by what is sent. -/
private theorem asked_ne {d e : View} (hd : d 6 = 0 ∧ d 7 = 1 ∧ ipAt d 24 = s.netIp)
    (he : ¬ (e 6 = 0 ∧ e 7 = 1 ∧ ipAt e 24 = s.netIp)) : (s.arpHandle d).effect ≠ (s.arpHandle e).effect := by
  rw [arpHandle_effect, arpHandle_effect, if_pos hd, if_neg he]
  exact fun h => arpReply_sent_ne d (Prod.ext_iff.mp h).1

/-- Two replies are told apart by what the cache becomes. -/
private theorem cached_ne {d e : View} (hd : d 6 = 0 ∧ d 7 = 2) (he : e 6 = 0 ∧ e 7 = 2)
    (hne : (s.cacheSender (ipAt d 14) (macAt d 8)).arpCache ≠
      (s.cacheSender (ipAt e 14) (macAt e 8)).arpCache) :
    (s.arpHandle d).effect ≠ (s.arpHandle e).effect := by
  rw [arpHandle_effect, arpHandle_effect, if_pos (c := d 6 = 0 ∧ (d 7 = 1 ∨ d 7 = 2)) ⟨hd.1, .inr hd.2⟩,
    if_pos (c := e 6 = 0 ∧ (e 7 = 1 ∨ e 7 = 2)) ⟨he.1, .inr he.2⟩]
  exact fun h => hne (Prod.ext_iff.mp (Prod.ext_iff.mp h).2).1

private theorem slot_of_cached (i : Fin 16) : (s.slot (s.arpCache i).ip).isSome := by
  rw [slot, Option.isSome_or, Bool.or_eq_true, Option.isSome_iff_ne_none, Option.isSome_iff_ne_none, Ne, Ne,
    findEntry_none, findEntry_none]
  by_contra hnone
  push Not at hnone
  have hknown := hnone.1 i
  have hfree := hnone.2 i
  simp_all

private theorem arp_request_leaks (h6 : 6 < n → p 6 = 0) (h7 : 7 < n → p 7 = 1) (hn : n ≤ 27)
    (hip : MayBe n p 24 s.netIp) : ¬ Confined n (fun p => (s.arpHandle p).effect) p := by
  have hask : ∀ e : View, e 6 = 0 → e 7 = 1 → ipAt e 24 = s.netIp →
      (fill n p e) 6 = 0 ∧ (fill n p e) 7 = 1 ∧ ipAt (fill n p e) 24 = s.netIp := by
    intro e he6 he7 hip'
    refine ⟨?_, ?_, ipAt_fill hip hip'⟩
    · rw [fill_new, he6]; rw [he6]; exact h6
    · rw [fill_new, he7]; rw [he7]; exact h7
  apply not_confined (agree_fill n p (arpBytes 1 0 0 s.netIp)) (agree_fill n p fun _ => ipByte s.netIp 3 + 1)
  apply asked_ne (hask _ rfl rfl (arpBytes_target ..))
  rintro ⟨-, -, hip'⟩
  have hlast := (ipAt_eq_iff _ _ _).mp hip' 3 (by decide)
  rw [fill, if_neg (by omega)] at hlast
  simp at hlast

/-- The completions of a reply that was cut off in the sender's addresses. -/
private theorem cut_reply (h6 : 6 < n → p 6 = 0) (h7 : 7 < n → p 7 = 2) (mac5 : UInt8) (ip : UInt32) :
    (fill n p (arpBytes 2 mac5 ip 0)) 6 = 0 ∧ (fill n p (arpBytes 2 mac5 ip 0)) 7 = 2 :=
  ⟨fill_new (e := arpBytes 2 mac5 ip 0) (i := 6) h6, fill_new (e := arpBytes 2 mac5 ip 0) (i := 7) h7⟩

private theorem cut_reply_ip {mac5 : UInt8} {ip : UInt32} (h : MayBe n p 14 ip) :
    ipAt (fill n p (arpBytes 2 mac5 ip 0)) 14 = ip :=
  ipAt_fill h (arpBytes_sender ..)

private theorem cut_reply_mac (h : 13 < n) (mac5 : UInt8) (ip : UInt32) :
    macAt (fill n p (arpBytes 2 mac5 ip 0)) 8 = macAt p 8 :=
  (agree_fill n p _).macAt (by omega)

private theorem cacheSender_slot {ip : UInt32} {i : Fin 16} (h : s.slot ip = some i) (mac : Mac) :
    (s.cacheSender ip mac).arpCache = Function.update s.arpCache i ⟨ip, mac, true⟩ := by
  rw [cacheSender_arpCache, h, Option.elim_some]

private theorem reply_leaks_full (h6 : 6 < n → p 6 = 0) (h7 : 7 < n → p 7 = 2) (hn : n ≤ 17) (h13 : 13 < n)
    (hfull : ∀ i, (s.arpCache i).valid = true) {ip : UInt32} {mac : Mac} (hmay : MayBe n p 14 ip)
    (hres : s.arpResolve ip = some mac) (hne : mac ≠ macAt p 8) :
    ¬ Confined n (fun p => (s.arpHandle p).effect) p := by
  obtain ⟨fresh, hfresh, hnew⟩ := exists_uncached s p hn
  have hnone : s.arpResolve fresh = none := by
    rw [arpResolve, Option.map_eq_none_iff, findEntry_none]
    intro i
    simp [hnew i]
  obtain ⟨i, hi, rfl⟩ := Option.map_eq_some_iff.mp hres
  have hslot : s.slot ip = some i := by rw [slot, hi, Option.some_or]
  apply not_confined (agree_fill n p (arpBytes 2 0 ip 0)) (agree_fill n p (arpBytes 2 0 fresh 0))
  apply cached_ne (cut_reply h6 h7 _ _) (cut_reply h6 h7 _ _)
  have hkept : (s.cacheSender fresh (macAt p 8)).arpCache = s.arpCache :=
    cacheSender_full hfull (by simp [hnone])
  rw [cut_reply_ip hmay, cut_reply_ip hfresh, cut_reply_mac h13, cut_reply_mac h13,
    cacheSender_slot hslot, hkept]
  intro heq
  apply hne
  rw [← heq, Function.update_self]

private theorem reply_leaks_free (h6 : 6 < n → p 6 = 0) (h7 : 7 < n → p 7 = 2) (hn : n ≤ 17)
    {k : Fin 16} (hk : (s.arpCache k).valid = false) : ¬ Confined n (fun p => (s.arpHandle p).effect) p := by
  obtain ⟨fresh, hfresh, hnew⟩ := exists_uncached s p hn
  obtain ⟨i, hi⟩ : ∃ i, (s.findEntry fun e => !e.valid) = some i := by
    apply Option.ne_none_iff_exists'.mp
    rw [Ne, findEntry_none]
    intro hall
    exact absurd (hall k) (by simp [hk])
  have hinvalid : (s.arpCache i).valid = false := by simpa using findEntry_some s hi
  have hslot : s.slot fresh = some i := by
    rw [slot, hi, (findEntry_none s).mpr fun j => by simp [hnew j], Option.none_or]
  obtain ⟨other, hother, hne⟩ : ∃ ip, MayBe n p 14 ip ∧ ip ≠ fresh := by
    refine ⟨_, mayBe_of_agree ((agree_fill 17 p fun _ => ipByte fresh 3 + 1).mono hn), fun heq => ?_⟩
    have hlast : ipByte fresh 3 + 1 = ipByte fresh 3 := (ipAt_eq_iff _ _ _).mp heq 3 (by decide)
    simp at hlast
  apply not_confined (agree_fill n p (arpBytes 2 0 fresh 0)) (agree_fill n p (arpBytes 2 0 other 0))
  apply cached_ne (cut_reply h6 h7 _ _) (cut_reply h6 h7 _ _)
  rw [cut_reply_ip hfresh, cut_reply_ip hother, cacheSender_slot hslot, cacheSender_arpCache]
  -- the free entry becomes that of `fresh` in one run only
  intro heq
  have hentry := congrFun heq i
  rw [Function.update_self] at hentry
  cases hs : s.slot other with
  | none =>
    rw [hs, Option.elim_none] at hentry
    simp [← hentry] at hinvalid
  | some j =>
    rw [hs, Option.elim_some, Function.update_apply] at hentry
    split at hentry
    · exact hne (congrArg ArpEntry.ip hentry).symm
    · simp [← hentry] at hinvalid

private theorem reply_leaks_short (h6 : 6 < n → p 6 = 0) (h7 : 7 < n → p 7 = 2) (hn : n ≤ 13) :
    ¬ Confined n (fun p => (s.arpHandle p).effect) p := by
  obtain ⟨i, hi⟩ := Option.isSome_iff_exists.mp (slot_of_cached (s := s) 0)
  have hmay : MayBe n p 14 (s.arpCache 0).ip := fun j _ hj => absurd hj (by omega)
  have hmac : ∀ b ip, macAt (fill n p (arpBytes 2 b ip 0)) 8 5 = b := by
    intro b ip
    rw [macAt, fill, if_neg (by show ¬ (8 + 5 < n); omega)]
    rfl
  apply not_confined (agree_fill n p (arpBytes 2 0 (s.arpCache 0).ip 0))
    (agree_fill n p (arpBytes 2 1 (s.arpCache 0).ip 0))
  apply cached_ne (cut_reply h6 h7 _ _) (cut_reply h6 h7 _ _)
  rw [cut_reply_ip hmay, cut_reply_ip hmay, cacheSender_slot hi, cacheSender_slot hi]
  intro heq
  have hentry := congrArg (fun c => (c i).mac 5) heq
  simp only [Function.update_self, hmac] at hentry
  exact absurd hentry (by decide)

/-- Handling an ARP packet is decided by its received bytes exactly if its
operation is received, and with it the target's address for a request and the
sender's addresses for a reply, unless what is received rules out any effect. -/
theorem arp_confined_iff : Confined n (fun p => (s.arpHandle p).effect) p ↔ ArpConfined s n p := by
  refine ⟨fun hc => ?_, arp_confined⟩
  by_contra hno
  rw [ArpConfined, not_or] at hno
  obtain ⟨hop, hrest⟩ := hno
  have h6 : 6 < n → p 6 = 0 := fun h => by_contra fun hne => hop ⟨h, hne⟩
  by_cases h7 : 7 < n
  · by_cases hreq : p 7 = 1 → 27 < n ∨ ¬ MayBe n p 24 s.netIp
    · have hrep : ¬ (p 7 = 2 → _) := fun h => hrest ⟨h7, hreq, h⟩
      push Not at hrep
      obtain ⟨htwo, hn, hshort⟩ := hrep
      by_cases h13 : 13 < n
      · by_cases hfull : ∀ i, (s.arpCache i).valid = true
        · obtain ⟨ip, mac, hmay, hres, hne⟩ := hshort h13 hfull
          exact reply_leaks_full h6 (fun _ => htwo) hn h13 hfull hmay hres hne hc
        · obtain ⟨k, hk⟩ := not_forall.mp hfull
          exact reply_leaks_free h6 (fun _ => htwo) hn (Bool.eq_false_iff.mpr hk) hc
      · exact reply_leaks_short h6 (fun _ => htwo) (by omega) hc
    · push Not at hreq
      obtain ⟨hone, hn, hmay⟩ := hreq
      exact arp_request_leaks h6 (fun _ => hone) hn hmay hc
  · exact arp_request_leaks h6 (fun h => absurd h h7) (by omega) (fun j _ hj => absurd hj (by omega)) hc

/-! ### Echo requests -/

def ipHead (s : Stack) (dst : UInt32) (protocol len : Nat) : List UInt8 :=
  s.ipHeader dst protocol (add16 20 len) (checksum (s.ipHeader dst protocol (add16 20 len) 0))

/-- The frame of `ip_send`: the packet, or a request for the hardware address. -/
def ipFrame (s : Stack) (dst : UInt32) (protocol : Nat) (payload : List UInt8) : List UInt8 :=
  match s.arpResolve dst with
  | some mac => ethFrame s mac etherTypeIpv4
    ((ipHead s dst protocol payload.length ++ payload).take (add16 20 payload.length))
  | none => ethFrame s macBroadcast etherTypeArp
    (arpPacket arpOpRequest s.netMac (bswap32 s.netIp.toNat) (fun _ => 0) (bswap32 dst.toNat))

theorem ipSend_effect (dst : UInt32) (protocol : Nat) {payload : List UInt8}
    (h : 20 + payload.length ≤ Buf.ipTx.size) :
    (s.ipSend dst protocol payload).effect =
      (s.sent ++ [ipFrame s dst protocol payload], s.arpCache, s.replyReceived, s.overrun) := by
  unfold ipSend
  dsimp only
  rw [copyThen_fits _ h]
  split
  · next mac heq =>
    have hres : s.arpResolve dst = some mac := heq
    rw [ipFrame, hres]
    refine netSendFrame_effect _ _ _ ?_
    have htake : add16 20 payload.length ≤ 20 + payload.length := by unfold add16; omega
    rw [List.length_take]
    simp only [Buf.size] at h ⊢
    omega
  · next heq =>
    have hres : s.arpResolve dst = none := heq
    rw [ipFrame, hres]
    exact netSendFrame_effect _ _ _ (arpPacket_fits ..)

theorem ipHead_length (dst : UInt32) (protocol len : Nat) : (ipHead s dst protocol len).length = 20 := rfl

/-- With a known hardware address the frame holds header and payload, unless a length wraps. -/
theorem ipFrame_whole {dst : UInt32} {mac : Mac} (hmac : s.arpResolve dst = some mac) (protocol : Nat)
    {a : List UInt8}
    (hfit : a.length < 2^16 - 34) :
    ipFrame s dst protocol a = ethHead s mac etherTypeIpv4 ++ (ipHead s dst protocol a.length ++ a) := by
  have h20 : add16 20 a.length = 20 + a.length := by unfold add16; omega
  have h14 : add16 14 (20 + a.length) = 34 + a.length := by unfold add16; omega
  have hpacket : (ipHead s dst protocol a.length ++ a).length = 20 + a.length := by
    rw [List.length_append, ipHead_length]
  simp only [ipFrame, hmac, ethFrame]
  rw [h20, ← hpacket, List.take_length, hpacket, h14, List.take_of_length_le]
  rw [List.length_append, ethHead_length, hpacket]
  omega

theorem ipFrame_eq_iff {dst : UInt32} {mac : Mac} (hmac : s.arpResolve dst = some mac) (protocol : Nat)
    {a b : List UInt8} (hlen : a.length = b.length) (hlt : a.length < 2^16) :
    ipFrame s dst protocol a = ipFrame s dst protocol b ↔ a = b ∨ 2^16 - 34 ≤ a.length := by
  by_cases hfit : b.length < 2^16 - 34
  · rw [ipFrame_whole hmac protocol hfit, ipFrame_whole hmac protocol (hlen ▸ hfit), hlen,
      List.append_right_inj, List.append_right_inj]
    exact ⟨.inl, fun h => h.resolve_right (by omega)⟩
  · simp only [ipFrame, hmac, ethFrame, hlen, List.length_take, List.length_append, ipHead_length]
    rw [hlen] at hlt
    refine iff_of_true ?_ (.inr (by omega))
    by_cases hwrap : b.length < 2^16 - 20
    · -- the Ethernet length wraps: not even its header is sent
      have h20 : add16 20 b.length = 20 + b.length := by unfold add16; omega
      have h14 : add16 14 (20 + b.length) ≤ (ethHead s mac etherTypeIpv4).length := by
        rw [ethHead_length]
        unfold add16
        omega
      rw [h20, Nat.min_self, List.take_append_of_le_length h14, List.take_append_of_le_length h14]
    · -- the total length wraps: the packet ends in its header
      have h20 : add16 20 b.length ≤ (ipHead s dst protocol b.length).length := by
        rw [ipHead_length]
        unfold add16
        omega
      have hcut : ∀ c : List UInt8, (ipHead s dst protocol b.length ++ c).take (add16 20 b.length) =
          (ipHead s dst protocol b.length).take (add16 20 b.length) :=
            fun c => List.take_append_of_le_length h20
      rw [hcut a, hcut b]

/-- The reply to an echo request of `len` bytes at `q`. -/
def echoPacket (q : View) (len : Nat) : List UInt8 :=
  (echoReply q (sub16 len 8) (checksum ((echoReply q (sub16 len 8) 0).take len))).take len

private theorem bytes16_load16 (q : View) (o : Nat) : bytes16 (q.load16 o) = [q o, q (o + 1)] := by
  have h0 := (q o).toNat_lt
  have h1 := (q (o + 1)).toNat_lt
  have hlow : UInt8.ofNat (q.load16 o) = q o := by
    rw [← UInt8.toNat_inj, UInt8.toNat_ofNat']
    unfold View.load16
    omega
  have hhigh : UInt8.ofNat (q.load16 o / 2^8) = q (o + 1) := by
    rw [← UInt8.toNat_inj, UInt8.toNat_ofNat']
    unfold View.load16
    omega
  rw [bytes16, hlow, hhigh]

/-- All but the first four bytes of a reply are the request's. -/
theorem echoReply_take (q : View) {len : Nat} (hlen : len < 2^16) (check : Nat) :
    (echoReply q (sub16 len 8) check).take len =
      ([icmpEchoReply, 0] ++ bytes16 check).take len ++ q.bytes 4 (len - 4) := by
  have hq : bytes16 (q.load16 4) ++ bytes16 (q.load16 6) ++ q.bytes 8 (sub16 len 8) =
    q.bytes 4 (4 + sub16 len 8) := by
    rw [View.bytes_add, bytes16_load16, bytes16_load16]
    rfl
  have hmin : min (len - 4) (4 + sub16 len 8) = len - 4 := by unfold sub16; omega
  have hreply : echoReply q (sub16 len 8) check =
      ([icmpEchoReply, 0] ++ bytes16 check) ++ q.bytes 4 (4 + sub16 len 8) := by
    rw [← hq]
    simp only [echoReply, List.append_assoc]
  have htake := View.bytes_drop_take q 4 (4 + sub16 len 8) 0 (len - 4)
  rw [List.drop_zero, Nat.add_zero, Nat.sub_zero, hmin] at htake
  rw [hreply, List.take_append, ← htake]
  rfl

theorem echoPacket_length (q : View) {len : Nat} (hlen : len < 2^16) : (echoPacket q len).length = len := by
  rw [echoPacket, echoReply_take q hlen, List.length_append, View.bytes_length, List.length_take]
  simp
  omega

/-- Two replies of the same length are equal if and only if the requests are from their fifth byte on. -/
theorem echoPacket_eq_iff (q q' : View) {len : Nat} (hlen : len < 2^16) :
    echoPacket q len = echoPacket q' len ↔ q.bytes 4 (len - 4) = q'.bytes 4 (len - 4) := by
  unfold echoPacket
  rw [echoReply_take q hlen, echoReply_take q' hlen, echoReply_take q hlen, echoReply_take q' hlen]
  constructor
  · intro h
    exact (List.append_inj h (by simp)).2
  · intro h
    rw [h]

/-- The length that `ip_handle` passes on. -/
def icmpLength (p : View) : Nat := sub16 (ipTotalLength p) (ipIhl p * 4)

theorem icmpLength_lt (p : View) : icmpLength p < 2^16 := by
  unfold icmpLength sub16
  omega

/-- An IPv4 packet that `icmp_handle` gets to see. -/
def ForIcmp (s : Stack) (p : View) : Prop :=
  ipVersion p = 4 ∧ ipAt p 16 = s.netIp ∧ (p 9).toNat = ipProtoIcmp

theorem ipHandle_other (h : ¬ ForIcmp s p) : (s.ipHandle p).effect = s.effect := by
  unfold ipHandle
  by_cases hv : ipVersion p = 4
  · by_cases hd : ipAt p 16 = s.netIp
    · rw [if_neg (not_not_intro hv), if_neg (not_not_intro hd)]
      dsimp only
      rw [if_neg fun hp => h ⟨hv, hd, hp⟩]
      rfl
    · rw [if_neg (not_not_intro hv), if_pos hd]
  · rw [if_pos hv]

theorem ipHandle_icmp (h : ForIcmp s p) :
    (s.ipHandle p).effect =
      if p 20 = icmpEchoRequest then
        if 8 + sub16 (icmpLength p) 8 ≤ Buf.reply.size then
          (s.sent ++ [ipFrame s (ipAt p 12) ipProtoIcmp (echoPacket (p.shift 20) (icmpLength p))],
            s.arpCache, s.replyReceived, s.overrun)
        else (s.sent, s.arpCache, s.replyReceived, some (.reply, (p.shift 20).bytes 8 (sub16 (icmpLength p) 8)))
      else (s.sent, s.arpCache, if p 20 = icmpEchoReply then true else s.replyReceived, s.overrun) := by
  have htotal : add16 8 (sub16 (icmpLength p) 8) = icmpLength p := by
    have := icmpLength_lt p
    unfold add16 sub16
    omega
  obtain ⟨hv, hd, hp⟩ := h
  unfold ipHandle
  rw [if_neg (not_not_intro hv), if_neg (not_not_intro hd)]
  dsimp only
  rw [if_pos hp]
  unfold icmpHandle
  rw [show p.shift 20 0 = p 20 from rfl]
  by_cases hreq : p 20 = icmpEchoRequest
  · rw [if_pos hreq, if_pos hreq]
    dsimp only
    rw [show sub16 (ipTotalLength p) (ipIhl p * 4) = icmpLength p from rfl, htotal]
    split
    · next hfit =>
      have hlt := icmpLength_lt p
      have hlength := echoPacket_length (p.shift 20) hlt
      have hpacket : 20 + (echoPacket (p.shift 20) (icmpLength p)).length ≤ Buf.ipTx.size := by
        rw [hlength]
        unfold sub16 at hfit
        simp only [Buf.size] at hfit ⊢
        omega
      rw [copyThen_fits _ (by rwa [View.bytes_length])]
      exact ipSend_effect _ _ hpacket
    · next hfull =>
      rw [copyThen_overruns _ (by rwa [View.bytes_length])]
      rfl
  · rw [if_neg hreq, if_neg hreq]
    split <;> rfl

/-- The handler of an IPv4 packet of which `n` bytes were received looks at no
others: they say that no ICMP message to us starts behind the header, or its type is
received and, for an echo request, so is what is copied, unless it fits the reply
buffer and the reply is not sent. -/
def IpConfined (s : Stack) (n : Nat) (p : View) : Prop :=
  (0 < n → ipVersion p = 4) → MayBe n p 16 s.netIp → (9 < n → (p 9).toNat = ipProtoIcmp) →
    20 < n ∧ (p 20 = icmpEchoRequest →
      28 + sub16 (icmpLength p) 8 ≤ n ∨
        s.arpResolve (ipAt p 12) = none ∧ 8 + sub16 (icmpLength p) 8 ≤ Buf.reply.size)

private theorem Agree.icmpLength {d : View} (h : Agree n p d) (hn : 4 ≤ n) : icmpLength d = icmpLength p := by
  unfold Net.icmpLength ipTotalLength ipIhl
  rw [h.load16 (by omega), h 0 (by omega)]

private theorem Agree.forIcmp {d : View} (h : Agree n p d) (hn : 20 ≤ n) : ForIcmp s d ↔ ForIcmp s p := by
  unfold ForIcmp ipVersion
  rw [h 0 (by omega), h.ipAt (by omega), h 9 (by omega)]

/-- What is received rules out every answer. -/
private theorem not_forIcmp {d : View} (hd : Agree n p d)
    (h : ¬ ((0 < n → ipVersion p = 4) ∧ MayBe n p 16 s.netIp ∧ (9 < n → (p 9).toNat = ipProtoIcmp))) :
    ¬ ForIcmp s d := by
  rintro ⟨hv, hip, hp⟩
  refine h ⟨fun hn => ?_, hip ▸ mayBe_of_agree hd, fun hn => ?_⟩
  · rwa [ipVersion, ← hd 0 hn]
  · rwa [← hd 9 hn]

/-- Where a byte up to `o + k` is not received, the bytes there can be others. -/
private theorem bytes_confined_iff {o k : Nat} (hk : 0 < k) :
    Confined n (fun p => p.bytes o k) p ↔ o + k ≤ n := by
  constructor
  · intro h
    by_contra hno
    have hlast := congrArg (fun l => l[k - 1]?) (h _ (agree_fill n p fun i => p i + 1))
    have hi : k - 1 < k := by omega
    simp only [View.bytes, List.getElem?_map, List.getElem?_range hi, Option.map_some, fill] at hlast
    rw [if_neg (by omega)] at hlast
    simp at hlast
  · intro h d hd
    exact View.bytes_congr fun i hi => hd _ (by omega)

/-- An echo request whose header and type are received. -/
private theorem echo_confined_iff (hn : 20 < n) (hp : ForIcmp s p) (hreq : p 20 = icmpEchoRequest) :
    Confined n (fun p => (s.ipHandle p).effect) p ↔
      28 + sub16 (icmpLength p) 8 ≤ n ∨
        s.arpResolve (ipAt p 12) = none ∧ 8 + sub16 (icmpLength p) 8 ≤ Buf.reply.size := by
  have heffect : ∀ d, Agree n p d → (s.ipHandle d).effect =
      if 8 + sub16 (icmpLength p) 8 ≤ Buf.reply.size then
        (s.sent ++ [ipFrame s (ipAt p 12) ipProtoIcmp (echoPacket (d.shift 20) (icmpLength p))],
          s.arpCache, s.replyReceived, s.overrun)
      else (s.sent, s.arpCache, s.replyReceived,
        some (.reply, (d.shift 20).bytes 8 (sub16 (icmpLength p) 8))) := by
    intro d hd
    rw [ipHandle_icmp ((hd.forIcmp (by omega)).mpr hp), if_pos (by rw [hd 20 hn, hreq]), hd.ipAt (by omega),
      hd.icmpLength (by omega)]
  have hlt := icmpLength_lt p
  have hbytes : ∀ (d : View) (o k : Nat), (d.shift 20).bytes o k = d.bytes (20 + o) k :=
    fun d o k => View.bytes_shift ..
  by_cases hfit : 8 + sub16 (icmpLength p) 8 ≤ Buf.reply.size
  · rw [confined_congr fun d hd => (heffect d hd).trans (if_pos hfit), and_iff_left hfit]
    -- the length has not wrapped
    have hlen : icmpLength p = 8 + sub16 (icmpLength p) 8 := by
      simp only [Buf.size] at hfit
      unfold sub16 at hfit ⊢
      omega
    cases hres : s.arpResolve (ipAt p 12) with
    | none =>
      refine iff_of_true (fun d _ => ?_) (.inr rfl)
      simp only [ipFrame, hres]
    | some mac =>
      have hframe : ∀ d d' : View,
          ((s.sent ++ [ipFrame s (ipAt p 12) ipProtoIcmp (echoPacket (d'.shift 20) (icmpLength p))],
            s.arpCache, s.replyReceived, s.overrun) =
          (s.sent ++ [ipFrame s (ipAt p 12) ipProtoIcmp (echoPacket (d.shift 20) (icmpLength p))],
            s.arpCache, s.replyReceived, s.overrun) ↔
          d'.bytes 24 (icmpLength p - 4) = d.bytes 24 (icmpLength p - 4)) := by
        intro d d'
        have hshort : ¬ 2^16 - 34 ≤ icmpLength p := by
          simp only [Buf.size] at hfit
          omega
        rw [Prod.mk.injEq, and_iff_left rfl, List.append_right_inj, List.cons.injEq, and_iff_left rfl,
          ipFrame_eq_iff hres _ (by rw [echoPacket_length _ hlt, echoPacket_length _ hlt])
            (by rwa [echoPacket_length _ hlt]),
          echoPacket_eq_iff _ _ hlt, echoPacket_length _ hlt, or_iff_left hshort, hbytes, hbytes]
      have hconfined := bytes_confined_iff (n := n) (p := p) (o := 24) (k := icmpLength p - 4) (by omega)
      simp only [Confined, hframe] at hconfined ⊢
      rw [hconfined]
      simp only [reduceCtorEq, or_false]
      omega
  · rw [confined_congr fun d hd => (heffect d hd).trans (if_neg hfit), or_iff_left fun h => hfit h.2]
    have hpos : 0 < sub16 (icmpLength p) 8 := by
      simp only [Buf.size] at hfit
      omega
    have hconfined := bytes_confined_iff (n := n) (p := p) (o := 28) hpos
    rw [← hconfined]
    simp only [Confined, hbytes, Prod.mk.injEq, true_and, Option.some.injEq]

/-- An ICMP message of type `t` to us, with data that begins with `b`. -/
private def icmpBytes (s : Stack) (t b : UInt8) : View := fun i =>
  if i = 0 then 0x45 else if i = 9 then 1 else if i = 20 then t else if i = 28 then b else ipByte
    s.netIp (i - 16)

private theorem icmpBytes_fill (hv : 0 < n → ipVersion p = 4) (hip : MayBe n p 16 s.netIp)
    (hp : 9 < n → (p 9).toNat = ipProtoIcmp) (t b : UInt8) : ForIcmp s (fill n p (icmpBytes s t b)) := by
  refine ⟨?_, ipAt_fill hip ?_, ?_⟩
  · unfold ipVersion fill
    split
    · next h => exact hv h
    · show (0x45 : UInt8).toNat / 16 = 4
      decide
  · rw [ipAt_eq_iff, forall_lt_four]
    exact ⟨rfl, rfl, rfl, rfl⟩
  · unfold fill
    split
    · next h => exact hp h
    · rfl

/-- With the type not received the message can be an echo request. -/
private theorem icmp_leaks (hn : n ≤ 20) (hv : 0 < n → ipVersion p = 4) (hip : MayBe n p 16 s.netIp)
    (hp : 9 < n → (p 9).toNat = ipProtoIcmp) : ¬ Confined n (fun p => (s.ipHandle p).effect) p := by
  have htype : ∀ t b, (fill n p (icmpBytes s t b)) 20 = t := fun t b => if_neg (by omega)
  have hfirst : ∀ t b, (fill n p (icmpBytes s t b)) 28 = b := fun t b => if_neg (by omega)
  have hlen : ∀ t b, icmpLength (fill n p (icmpBytes s t b)) =
    icmpLength (fill n p (icmpBytes s 0 0)) := fun t b => rfl
  by_cases hfit : 8 + sub16 (icmpLength (fill n p (icmpBytes s 0 0))) 8 ≤ Buf.reply.size
  · apply not_confined (agree_fill n p (icmpBytes s icmpEchoRequest 0)) (agree_fill n p (icmpBytes s 1 0))
    have hother : (1 : UInt8) ≠ icmpEchoRequest := by decide
    rw [ipHandle_icmp (icmpBytes_fill hv hip hp _ _), ipHandle_icmp (icmpBytes_fill hv hip hp _ _),
      htype, htype, hlen, if_pos rfl, if_neg hother, if_pos hfit]
    intro heq
    simpa using (Prod.ext_iff.mp heq).1
  · -- the copy behind the reply buffer differs in its first byte
    apply not_confined (agree_fill n p (icmpBytes s icmpEchoRequest 0))
      (agree_fill n p (icmpBytes s icmpEchoRequest 1))
    rw [ipHandle_icmp (icmpBytes_fill hv hip hp _ _), ipHandle_icmp (icmpBytes_fill hv hip hp _ _),
      htype, htype, hlen icmpEchoRequest 0, hlen icmpEchoRequest 1, if_pos rfl, if_pos rfl, if_neg hfit,
      if_neg hfit]
    intro heq
    simp only [Prod.mk.injEq, true_and, Option.some.injEq, View.bytes_shift] at heq
    have hpos : 0 < sub16 (icmpLength (fill n p (icmpBytes s 0 0))) 8 := by
      simp only [Buf.size] at hfit
      omega
    have hbyte := congrArg (fun l => l[0]?) heq
    simp [View.bytes, hpos, hfirst] at hbyte

/-- Handling an IPv4 packet is decided by its received bytes exactly under `IpConfined`. -/
theorem ip_confined_iff : Confined n (fun p => (s.ipHandle p).effect) p ↔ IpConfined s n p := by
  by_cases hmay : (0 < n → ipVersion p = 4) ∧ MayBe n p 16 s.netIp ∧ (9 < n → (p 9).toNat = ipProtoIcmp)
  · obtain ⟨hv, hip, hp⟩ := hmay
    rw [IpConfined, imp_iff_right hv, imp_iff_right hip, imp_iff_right hp]
    by_cases hn : 20 < n
    · have hfor : ForIcmp s p :=
        ⟨hv (by omega), (ipAt_eq_iff _ _ _).mpr fun j hj => hip j hj (by omega), hp (by omega)⟩
      rw [and_iff_right hn]
      by_cases hreq : p 20 = icmpEchoRequest
      · rw [echo_confined_iff hn hfor hreq, imp_iff_right hreq]
      · refine iff_of_true (fun d hd => ?_) fun h => absurd h hreq
        dsimp only
        rw [ipHandle_icmp ((hd.forIcmp (by omega)).mpr hfor), ipHandle_icmp hfor, hd 20 hn, if_neg hreq,
          if_neg hreq]
    · exact iff_of_false (icmp_leaks (by omega) hv hip hp) fun h => hn h.1
  · refine iff_of_true ?_ fun hv hip hp => absurd ⟨hv, hip, hp⟩ hmay
    exact confined_of_const fun d hd => ipHandle_other (not_forIcmp hd hmay)

/-! ### Frames -/

theorem Agree.forUs {d : View} (h : Agree n p d) (hn : 6 ≤ n) : s.forUs d = s.forUs p := by
  unfold Stack.forUs
  congr 1
  funext i
  rw [h i (by omega)]

theorem arpHandle_record (es : List Event) (p : View) :
    ((s.record es).arpHandle p).effect = (s.arpHandle p).effect := by
  rw [arpHandle_effect, arpHandle_effect, cacheSender_arpCache, cacheSender_arpCache]
  rfl

theorem ipHandle_record (es : List Event) (p : View) :
    ((s.record es).ipHandle p).effect = (s.ipHandle p).effect := by
  by_cases h : ForIcmp s p
  · have h' : ForIcmp (s.record es) p := h
    rw [ipHandle_icmp h, ipHandle_icmp h']
    rfl
  · have h' : ¬ ForIcmp (s.record es) p := h
    rw [ipHandle_other h, ipHandle_other h']
    rfl

/-- What a frame sends and stores is decided by its received bytes exactly if it
is not ours, or of no type that is handled, or its ARP or IPv4 packet is confined. -/
theorem replies_confined_iff (s : Stack) (data : View) (len : UInt16) :
    (∀ data', (∀ i < len.toNat, data' i = data i) →
        (s.netHandlePacket data' len).effect = (s.netHandlePacket data len).effect) ↔
      (14 ≤ len.toNat → s.forUs data →
        (bswap16 (data.load16 12) = etherTypeArp → ArpConfined s (len.toNat - 14) (data.shift 14)) ∧
        (bswap16 (data.load16 12) = etherTypeIpv4 → IpConfined s (len.toNat - 14) (data.shift 14))) := by
  change Confined len.toNat (fun d => (s.netHandlePacket d len).effect) data ↔ _
  by_cases hlen : 14 ≤ len.toNat
  · rw [imp_iff_right hlen]
    by_cases hus : s.forUs data = true
    · rw [imp_iff_right hus]
      have hhandled : ∀ d, Agree len.toNat data d → (s.netHandlePacket d len).effect =
          if bswap16 (data.load16 12) = etherTypeArp then (s.arpHandle (d.shift 14)).effect
          else if bswap16 (data.load16 12) = etherTypeIpv4 then (s.ipHandle (d.shift 14)).effect
          else s.effect := by
        intro d hd
        unfold netHandlePacket
        rw [if_neg (by omega), hd.forUs (by omega), hus, if_neg (by decide)]
        dsimp only
        rw [hd.load16 (by omega)]
        split
        · exact arpHandle_record ..
        · split
          · exact ipHandle_record ..
          · rfl
      rw [confined_congr hhandled]
      by_cases harp : bswap16 (data.load16 12) = etherTypeArp
      · have hip : bswap16 (data.load16 12) ≠ etherTypeIpv4 := by rw [harp]; decide
        simp only [if_pos harp]
        rw [confined_shift (f := fun p => (s.arpHandle p).effect) hlen, arp_confined_iff]
        exact ⟨fun h => ⟨fun _ => h, fun h' => absurd h' hip⟩, fun h => h.1 harp⟩
      · simp only [if_neg harp]
        by_cases hip : bswap16 (data.load16 12) = etherTypeIpv4
        · simp only [if_pos hip]
          rw [confined_shift (f := fun p => (s.ipHandle p).effect) hlen, ip_confined_iff]
          exact ⟨fun h => ⟨fun h' => absurd h' harp, fun _ => h⟩, fun h => h.2 hip⟩
        · simp only [if_neg hip]
          exact iff_of_true (fun _ _ => rfl) ⟨fun h => absurd h harp, fun h => absurd h hip⟩
    · refine iff_of_true (confined_of_const (b := s.effect) fun d hd => ?_) fun h => absurd h hus
      unfold netHandlePacket
      rw [if_neg (by omega), hd.forUs (by omega), if_pos (by simp [hus])]
  · refine iff_of_true (confined_of_const (b := s.effect) fun d hd => ?_) fun h => absurd h hlen
    unfold netHandlePacket
    rw [if_pos (by omega)]

/-- A ping with one byte of data that the frame of 42 bytes does not hold; `behind`
is what lies there. -/
def shortEcho (behind : UInt8) : View := fun i =>
  ([0xFF, 0xFF, 0xFF, 0xFF, 0xFF, 0xFF, 2, 0, 0, 0, 0, 1, 0x08, 0x00,
    0x45, 0, 0, 0x1D, 0, 0, 0x40, 0, 64, 1, 0, 0, 10, 0, 2, 2, 10, 0, 2, 15,
    8, 0, 0, 0, 0, 1, 0, 1, behind] : List UInt8).getD i 0

/-- A station at 10.0.2.15 that knows 10.0.2.2. -/
def resolvedStack : Stack :=
  ⟨0x0A00020F, fun _ => 0x52, fun i => ⟨0x0A000202, fun _ => 2, i == 0⟩, false, [], [], none⟩

private theorem shortEcho_effect (b : UInt8) :
    (resolvedStack.netHandlePacket (shortEcho b) 42).effect =
      ([ipFrame resolvedStack 0x0A000202 ipProtoIcmp (echoPacket (((shortEcho b).shift 14).shift 20) 9)],
        resolvedStack.arpCache, false, none) := by
  have hus : resolvedStack.forUs (shortEcho b) = true := rfl
  have htype : bswap16 ((shortEcho b).load16 12) = etherTypeIpv4 := by
    rw [bswap16_load16, show shortEcho b 12 = 8 from rfl, show shortEcho b (12 + 1) = 0 from rfl]
    decide
  have hdst : ipAt ((shortEcho b).shift 14) 16 = resolvedStack.netIp := by
    rw [ipAt_eq_iff, forall_lt_four]
    exact ⟨show 10 = _ by decide, show 0 = _ by decide, show 2 = _ by decide, show 15 = _ by decide⟩
  have hsrc : ipAt ((shortEcho b).shift 14) 12 = 0x0A000202 := by
    rw [ipAt_eq_iff, forall_lt_four]
    exact ⟨show 10 = _ by decide, show 0 = _ by decide, show 2 = _ by decide, show 2 = _ by decide⟩
  have hfor : ForIcmp resolvedStack ((shortEcho b).shift 14) :=
    ⟨show (0x45 : UInt8).toNat / 16 = 4 by decide, hdst, show (1 : UInt8).toNat = 1 by decide⟩
  have hlen : icmpLength ((shortEcho b).shift 14) = 9 := by
    have htotal : ipTotalLength ((shortEcho b).shift 14) = 29 := by
      rw [ipTotalLength, bswap16_load16]
      show (0 : UInt8).toNat * 2^8 + (0x1D : UInt8).toNat = 29
      decide
    have hihl : ipIhl ((shortEcho b).shift 14) = 5 := show (0x45 : UInt8).toNat % 16 = 5 by decide
    rw [icmpLength, htotal, hihl, sub16_eq (by decide) (by decide)]
  have hreq : (shortEcho b).shift 14 20 = icmpEchoRequest := rfl
  have hfit : 8 + sub16 9 8 ≤ Buf.reply.size := by
    rw [sub16_eq (by decide) (by decide)]
    decide
  unfold netHandlePacket
  rw [if_neg (by decide), hus, if_neg (by decide)]
  dsimp only
  rw [htype, if_neg (by decide), if_pos rfl, ipHandle_record, ipHandle_icmp hfor, if_pos hreq, hlen,
    hsrc, if_pos hfit]
  rfl

/-- The byte is sent back. -/
theorem short_echo_leaks :
    ¬ ∀ (s : Stack) (data data' : View) (len : UInt16), (∀ i < len.toNat, data' i = data i) →
      (s.netHandlePacket data' len).effect = (s.netHandlePacket data len).effect := by
  intro h
  have hsame := h resolvedStack (shortEcho 0) (shortEcho 1) 42 (by decide)
  rw [shortEcho_effect, shortEcho_effect] at hsame
  have hframe := List.head_eq_of_cons_eq (Prod.ext_iff.mp hsame).1
  have hlength : ∀ q, (echoPacket q 9).length = 9 := fun q => echoPacket_length q (by decide)
  have hknown : resolvedStack.arpResolve 0x0A000202 = some fun _ => 2 := rfl
  rw [ipFrame_eq_iff hknown _ (by rw [hlength, hlength]) (by rw [hlength]; decide), hlength,
    or_iff_left (by decide), echoPacket_eq_iff _ _ (by decide)] at hframe
  exact absurd hframe (by decide)

end GeckoOS.Net
