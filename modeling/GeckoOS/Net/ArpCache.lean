import GeckoOS.Lib.Log
import GeckoOS.Net.Leaks

/-! The ARP cache: the first sixteen senders with their latest hardware addresses. -/
namespace GeckoOS.Net
open Lib Stack

/-- `arp_init`. -/
def Stack.arpInit (s : Stack) : Stack := { s with arpCache := fun i => { s.arpCache i with valid := false } }

/-- The sender of a request or of a reply. -/
def sender (data : View) : Option (UInt32 × Mac) :=
  if bswap16 (data.load16 6) = arpOpRequest ∨ bswap16 (data.load16 6) = arpOpReply then some
    (ipAt data 14, macAt data 8)
  else none

variable {s : Stack} {log : List (UInt32 × Mac)} {ip : UInt32} {mac : Mac} {data : View} {i : Fin 16}

/-- The search stops at the first entry. -/
theorem findEntry_eq_some {p : ArpEntry → Bool} :
    s.findEntry p = some i ↔ p (s.arpCache i) = true ∧ ∀ j < i, p (s.arpCache j) = false := by
  rw [findEntry, List.find?_eq_some_iff_getElem]
  constructor
  · rintro ⟨hi, k, hk, rfl, hlt⟩
    refine ⟨hi, fun j hj => ?_⟩
    rw [List.getElem_finRange] at hj
    have hnot := hlt j.val hj
    rw [List.getElem_finRange, Bool.not_eq_true'] at hnot
    exact hnot
  · rintro ⟨hi, hlt⟩
    refine ⟨hi, i.val, by simp, by simp, fun j hj => ?_⟩
    rw [List.getElem_finRange, Bool.not_eq_true']
    exact hlt _ hj

/-- A sender that has found a place resolves to its hardware address. -/
theorem arpResolve_cacheSender (s : Stack) (ip : UInt32) (mac : Mac) :
    (s.cacheSender ip mac).arpResolve ip = (s.slot ip).map fun _ => mac := by
  have hcache := cacheSender_arpCache s ip mac
  cases hslot : s.slot ip with
  | none =>
    rw [hslot, Option.elim_none] at hcache
    rw [slot, Option.or_eq_none_iff] at hslot
    have hunknown : ((s.cacheSender ip mac).findEntry fun e => e.valid && e.ip == ip) = none := by
      rw [findEntry, hcache]
      exact hslot.1
    rw [arpResolve, hunknown, Option.map_none, Option.map_none]
  | some i =>
    rw [hslot, Option.elim_some] at hcache
    have hfirst : ∀ j < i, ((s.arpCache j).valid && (s.arpCache j).ip == ip) = false := by
      rw [slot, Option.or_eq_some_iff] at hslot
      rcases hslot with hknown | ⟨hnone, -⟩
      · exact (findEntry_eq_some.mp hknown).2
      · exact fun j _ => (findEntry_none s).mp hnone j
    have hknown : ((s.cacheSender ip mac).findEntry fun e => e.valid && e.ip == ip) = some i := by
      apply findEntry_eq_some.mpr
      rw [hcache]
      refine ⟨by rw [Function.update_self, beq_self_eq_true, Bool.and_self], fun j hj => ?_⟩
      rw [Function.update_of_ne (Fin.ne_of_lt hj)]
      exact hfirst j hj
    rw [arpResolve, hknown, Option.map_some, Option.map_some, hcache, Function.update_self]

/-- The entries are filled one after the other, one for each address. -/
structure Cached (log : List (UInt32 × Mac)) (s : Stack) : Prop where
  entry : ∀ (i : Fin 16) (h : i.val < (keys log).length),
    ∃ mac, latest log (keys log)[i.val] = some mac ∧ s.arpCache i = ⟨(keys log)[i.val], mac, true⟩
  free : ∀ i : Fin 16, (keys log).length ≤ i.val → (s.arpCache i).valid = false

namespace Cached

theorem valid_iff (h : Cached log s) (i : Fin 16) : (s.arpCache i).valid = true ↔
    i.val < (keys log).length := by
  constructor
  · intro hv
    by_contra hle
    rw [h.free i (by omega)] at hv
    cases hv
  · intro hlt
    obtain ⟨mac, -, heq⟩ := h.entry i hlt
    rw [heq]

/-- The place of an address in the cache is the one in the order of the senders. -/
theorem holds_iff (h : Cached log s) (i : Fin 16) (ip : UInt32) :
    ((s.arpCache i).valid && (s.arpCache i).ip == ip) = true ↔ (keys log)[i.val]? = some ip := by
  rw [Bool.and_eq_true, beq_iff_eq, h.valid_iff, List.getElem?_eq_some_iff]
  constructor
  · rintro ⟨hlt, hip⟩
    obtain ⟨mac, -, heq⟩ := h.entry i hlt
    rw [heq] at hip
    exact ⟨hlt, hip⟩
  · rintro ⟨hlt, hip⟩
    obtain ⟨mac, -, heq⟩ := h.entry i hlt
    rw [heq]
    exact ⟨hlt, hip⟩

theorem index_unique (i j : Fin 16) (hi : (keys log)[i.val]? = some ip)
    (hj : (keys log)[j.val]? = some ip) : i = j := by
  obtain ⟨hi, hi'⟩ := List.getElem?_eq_some_iff.mp hi
  obtain ⟨hj, hj'⟩ := List.getElem?_eq_some_iff.mp hj
  exact Fin.ext ((nodup_keys log).getElem_inj_iff.mp (hi'.trans hj'.symm))

theorem exists_index (h : ip ∈ (keys log).take 16) : ∃ k : Fin 16, (keys log)[k.val]? = some ip := by
  obtain ⟨k, hk, hget⟩ := List.mem_take_iff_getElem.mp h
  rw [Nat.lt_min] at hk
  exact ⟨⟨k, hk.1⟩, List.getElem?_eq_some_iff.mpr ⟨hk.2, hget⟩⟩

theorem find_known (h : Cached log s) (hi : (keys log)[i.val]? = some ip) :
    (s.findEntry fun e => e.valid && e.ip == ip) = some i := by
  apply findEntry_eq_some.mpr
  refine ⟨(h.holds_iff i ip).mpr hi, fun j hj => ?_⟩
  rw [← Bool.not_eq_true, h.holds_iff]
  exact fun heq => absurd (index_unique i j hi heq) (Fin.ne_of_gt hj)

theorem find_unknown (h : Cached log s) (hip : ip ∉ (keys log).take 16) :
    (s.findEntry fun e => e.valid && e.ip == ip) = none := by
  apply (findEntry_none s).mpr
  intro i
  rw [← Bool.not_eq_true, h.holds_iff]
  intro hi
  apply hip
  exact List.mem_of_getElem? (i := i.val) ((List.getElem?_take_of_lt i.isLt).trans hi)

theorem find_free (h : Cached log s) (hlt : (keys log).length < 16) :
    (s.findEntry fun e => !e.valid) = some ⟨(keys log).length, hlt⟩ := by
  apply findEntry_eq_some.mpr
  constructor
  · rw [h.free _ (Nat.le_refl _)]
    rfl
  · intro j hj
    rw [(h.valid_iff j).mpr hj]
    rfl

theorem find_full (h : Cached log s) (hle : 16 ≤ (keys log).length) :
    (s.findEntry fun e => !e.valid) = none := by
  apply (findEntry_none s).mpr
  intro i
  rw [(h.valid_iff i).mpr (Nat.lt_of_lt_of_le i.isLt hle)]
  rfl

/-- An entry other than that of the new packet. -/
private theorem other_entry (h : Cached log s) (hi : i.val < (keys log).length) (hne : (keys log)[i.val] ≠ ip) :
    ∃ mac', latest (log ++ [(ip, mac)]) (keys log)[i.val] = some mac' ∧
    s.arpCache i = ⟨(keys log)[i.val], mac', true⟩ := by
  obtain ⟨mac', hlatest, hentry⟩ := h.entry i hi
  exact ⟨mac', by rw [latest_snoc_of_ne hne, hlatest], hentry⟩

/-- The packet comes from an address that has an entry. -/
private theorem refreshed (h : Cached log s) {k : Fin 16} (hk : (keys log)[k.val]? = some ip) {s' : Stack}
    (hs : s'.arpCache = Function.update s.arpCache k ⟨ip, mac, true⟩) : Cached (log ++ [(ip, mac)]) s' := by
  obtain ⟨hlt, hget⟩ := List.getElem?_eq_some_iff.mp hk
  have hkeys := keys_snoc_of_mem (List.mem_of_getElem? hk) mac
  constructor
  · intro i hi
    rw [hs]
    simp only [hkeys] at hi ⊢
    by_cases hik : i = k
    · subst hik
      refine ⟨mac, ?_, ?_⟩
      · rw [hget, latest_snoc_self]
      · rw [Function.update_self, hget]
    · rw [Function.update_of_ne hik]
      apply h.other_entry hi
      intro heq
      exact hik (index_unique i k (List.getElem?_eq_some_iff.mpr ⟨hi, heq⟩) hk)
  · intro i hi
    rw [hkeys] at hi
    have hik : i ≠ k := by
      rintro rfl
      exact absurd hlt (Nat.not_lt.mpr hi)
    rw [hs, Function.update_of_ne hik]
    exact h.free i hi

/-- A new address takes the next entry. -/
private theorem added (h : Cached log s) (hip : ip ∉ keys log) (hroom : (keys log).length < 16) {s' : Stack}
    (hs : s'.arpCache = Function.update s.arpCache ⟨(keys log).length, hroom⟩ ⟨ip, mac, true⟩) :
    Cached (log ++ [(ip, mac)]) s' := by
  have hkeys := keys_snoc_of_notMem hip mac
  constructor
  · intro i hi
    rw [hs]
    simp only [hkeys] at hi ⊢
    by_cases hik : i = ⟨(keys log).length, hroom⟩
    · subst hik
      refine ⟨mac, ?_, ?_⟩
      · rw [List.getElem_append_right (Nat.le_refl _)]
        simp
      · simp
    · have hlt : i.val < (keys log).length := by
        rw [List.length_append, List.length_singleton] at hi
        have hval : i.val ≠ (keys log).length := fun heq => hik (Fin.ext heq)
        omega
      rw [List.getElem_append_left hlt, Function.update_of_ne hik]
      exact h.other_entry hlt fun heq => hip (heq ▸ List.getElem_mem hlt)
  · intro i hi
    rw [hkeys, List.length_append, List.length_singleton] at hi
    have hik : i ≠ ⟨(keys log).length, hroom⟩ := by
      rintro rfl
      exact absurd hi (by simp)
    rw [hs, Function.update_of_ne hik]
    exact h.free i (by omega)

/-- The cache is full, and the address came too late. -/
private theorem ignored (h : Cached log s) (hip : ip ∉ (keys log).take 16)
    (hfull : 16 ≤ (keys log).length) {s' : Stack}
    (hs : s'.arpCache = s.arpCache) : Cached (log ++ [(ip, mac)]) s' := by
  obtain ⟨rest, hkeys⟩ : ∃ rest, keys (log ++ [(ip, mac)]) = keys log ++ rest := by
    by_cases hmem : ip ∈ keys log
    · exact ⟨[], by rw [keys_snoc_of_mem hmem, List.append_nil]⟩
    · exact ⟨[ip], keys_snoc_of_notMem hmem mac⟩
  constructor
  · intro i hi
    have hlt : i.val < (keys log).length := Nat.lt_of_lt_of_le i.isLt hfull
    simp only [hkeys]
    rw [hs, List.getElem_append_left hlt]
    apply h.other_entry hlt
    intro heq
    exact hip (List.mem_take_iff_getElem.mpr ⟨i.val, by omega, heq⟩)
  · intro i hi
    rw [hkeys, List.length_append] at hi
    omega

/-- One more packet. -/
theorem cacheSender (h : Cached log s) (ip : UInt32) (mac : Mac) :
    Cached (log ++ [(ip, mac)]) (s.cacheSender ip mac) := by
  have hcache := cacheSender_arpCache s ip mac
  rw [slot] at hcache
  by_cases hknown : ip ∈ (keys log).take 16
  · obtain ⟨k, hk⟩ := exists_index hknown
    rw [h.find_known hk, Option.some_or] at hcache
    exact h.refreshed hk hcache
  · rw [h.find_unknown hknown, Option.none_or] at hcache
    by_cases hroom : (keys log).length < 16
    · rw [h.find_free hroom] at hcache
      rw [List.take_of_length_le (by omega)] at hknown
      exact h.added hknown hroom hcache
    · rw [h.find_full (by omega)] at hcache
      exact h.ignored hknown (by omega) hcache

/-- Packets that are neither requests nor replies are not cached. -/
theorem arpHandle (h : Cached log s) (data : View) :
    Cached (log ++ (sender data).toList) (s.arpHandle data) := by
  have hreply : Cached log (s.arpReply data) := ⟨h.entry, h.free⟩
  have hany : ∀ c : Prop, [Decidable c] → Cached log (if c then s.arpReply data else s) := by
    intro c _
    split
    · exact hreply
    · exact h
  unfold Stack.arpHandle sender
  dsimp only
  split
  · exact (hany _).cacheSender _ _
  · rw [Option.toList_none, List.append_nil]
    exact hany _

theorem resolve_known (h : Cached log s) (hip : ip ∈ (keys log).take 16) :
    ∃ mac, latest log ip = some mac ∧ s.arpResolve ip = some mac := by
  obtain ⟨k, hk⟩ := exists_index hip
  obtain ⟨hlt, hget⟩ := List.getElem?_eq_some_iff.mp hk
  obtain ⟨mac, hlatest, hentry⟩ := h.entry k hlt
  refine ⟨mac, hget ▸ hlatest, ?_⟩
  rw [Stack.arpResolve, h.find_known hk, Option.map_some, hentry]

theorem resolve_unknown (h : Cached log s) (hip : ip ∉ (keys log).take 16) : s.arpResolve ip = none := by
  rw [Stack.arpResolve, h.find_unknown hip, Option.map_none]

end Cached

theorem cached_arpInit (s : Stack) : Cached [] s.arpInit :=
  ⟨fun _ h => absurd h (Nat.not_lt_zero _), fun _ _ => rfl⟩

/-- Any packets, one after the other. -/
theorem cached_run (h : Cached log s) (packets : List View) :
    Cached (log ++ packets.filterMap sender) (packets.foldl Stack.arpHandle s) := by
  induction packets generalizing s log with
  | nil =>
    rw [List.filterMap_nil, List.append_nil]
    exact h
  | cons data packets ih =>
    have hstep := ih (h.arpHandle data)
    rw [List.append_assoc] at hstep
    cases hsend : sender data with
    | none =>
      rw [hsend] at hstep
      rw [List.filterMap_cons_none hsend]
      exact hstep
    | some e =>
      rw [hsend] at hstep
      rw [List.filterMap_cons_some hsend]
      exact hstep

/-- The stack behind `arp_init` and these packets. -/
def Stack.afterPackets (s : Stack) (packets : List View) : Stack := packets.foldl Stack.arpHandle s.arpInit

/-- Behind `arp_init` and any packets no two valid entries have the same address, and
an address resolves exactly if it is one of the first 16 senders, to the latest
hardware address that it sent. -/
theorem arp_cache_refines (s : Stack) (packets : List View) :
    (∀ i j, ((s.afterPackets packets).arpCache i).valid = true →
      ((s.afterPackets packets).arpCache j).valid = true →
      ((s.afterPackets packets).arpCache i).ip = ((s.afterPackets packets).arpCache j).ip → i = j) ∧
    (∀ ip ∈ (keys (packets.filterMap sender)).take 16, ∃ mac, latest (packets.filterMap sender) ip = some mac ∧
      (s.afterPackets packets).arpResolve ip = some mac) ∧
    ∀ ip ∉ (keys (packets.filterMap sender)).take 16, (s.afterPackets packets).arpResolve ip = none := by
  have h := cached_run (cached_arpInit s) packets
  rw [List.nil_append] at h
  refine ⟨fun i j hi hj hip => ?_, fun ip => h.resolve_known, fun ip => h.resolve_unknown⟩
  apply Cached.index_unique i j ((h.holds_iff i _).mp _) ((h.holds_iff j _).mp _)
  · exact ((s.afterPackets packets).arpCache i).ip
  · rw [afterPackets] at hi ⊢
    rw [hi, beq_self_eq_true, Bool.and_self]
  · rw [afterPackets] at hj hip ⊢
    rw [hj, hip, beq_self_eq_true, Bool.and_self]

end GeckoOS.Net
