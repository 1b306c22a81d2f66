import Mathlib.Data.List.Dedup
import Mathlib.Tactic.Common

/-! Logs of keys with values, the latest entry last: the keys in the order in which
they turned up, and the latest value of each. -/
namespace GeckoOS.Lib
variable {α β : Type} [DecidableEq α]

def keys (log : List (α × β)) : List α := (log.map Prod.fst).reverse.dedup.reverse

def latest (log : List (α × β)) (a : α) : Option β := log.reverse.lookup a

variable {log : List (α × β)} {a a' : α} {b : β}

theorem nodup_keys (log : List (α × β)) : (keys log).Nodup := List.nodup_reverse.mpr (List.nodup_dedup _)

private theorem keys_snoc (log : List (α × β)) (a : α) (b : β) :
    keys (log ++ [(a, b)]) = (a :: (log.map Prod.fst).reverse).dedup.reverse := by
  simp [keys]

/-- A key that is there already keeps its place. -/
theorem keys_snoc_of_mem (h : a ∈ keys log) (b : β) : keys (log ++ [(a, b)]) = keys log := by
  have hmem : a ∈ (log.map Prod.fst).reverse := List.mem_dedup.mp (List.mem_reverse.mp h)
  rw [keys_snoc, List.dedup_cons_of_mem hmem, keys]

theorem keys_snoc_of_notMem (h : a ∉ keys log) (b : β) : keys (log ++ [(a, b)]) = keys log ++ [a] := by
  have hmem : a ∉ (log.map Prod.fst).reverse := fun hm => h (List.mem_reverse.mpr (List.mem_dedup.mpr hm))
  rw [keys_snoc, List.dedup_cons_of_notMem hmem, List.reverse_cons, keys]

@[simp] theorem latest_snoc_self (log : List (α × β)) (a : α) (b : β) :
    latest (log ++ [(a, b)]) a = some b := by
  rw [latest, List.reverse_append]
  exact List.lookup_cons_self

theorem latest_snoc_of_ne (h : a' ≠ a) (b : β) : latest (log ++ [(a, b)]) a' = latest log a' := by
  rw [latest, List.reverse_append]
  show ((a, b) :: log.reverse).lookup a' = _
  rw [List.lookup_cons, beq_eq_false_iff_ne.mpr h, latest]

end GeckoOS.Lib
