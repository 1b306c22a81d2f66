import GeckoOS.Fs.Fat32
import Mathlib.Data.List.GetD
import Mathlib.Data.List.TakeWhile

/-! Names of eight and three characters: how they are encoded in an entry, and that
formatting gives them back in upper case. -/
namespace GeckoOS.Fs.Fat32

variable {name base ext : List UInt8} {b : UInt8}

theorem upper_toNat (b : UInt8) :
    (upper b).toNat = if 97 ≤ b.toNat ∧ b.toNat ≤ 122 then b.toNat - 32 else b.toNat := by
  by_cases h : 97 ≤ b.toNat ∧ b.toNat ≤ 122
  · have hle : (32 : UInt8) ≤ b := UInt8.le_iff_toNat_le.mpr (le_trans (by decide) h.1)
    have hup : upper b = b - 32 := if_pos h
    rw [if_pos h, hup]
    exact UInt8.toNat_sub_of_le b 32 hle
  · have hup : upper b = b := if_neg h
    rw [if_neg h, hup]

private theorem upper_ascii (h : b ≠ 0 ∧ b < 128) : upper b ≠ entryEnd ∧ upper b ≠ entryFree := by
  obtain ⟨h0, h1⟩ := h
  rw [ne_eq, ← UInt8.toNat_inj] at h0
  have hpos : ¬ b.toNat = 0 := h0
  have hlt : b.toNat < 128 := h1
  have hup := upper_toNat b
  rw [ne_eq, ne_eq, ← UInt8.toNat_inj, ← UInt8.toNat_inj, hup]
  change ¬ _ = 0 ∧ ¬ _ = 229
  split <;> omega

/-- The first byte is a blank or comes from the name. -/
private theorem encode83Name_zero (name : List UInt8) :
    encode83Name name 0 = 32 ∨ ∃ b ∈ name, encode83Name name 0 = upper b := by
  have hhead : 0 < name.length → ∃ b ∈ name, upper (name.getD 0 0) = upper b := by
    intro hpos
    rw [List.getD_eq_getElem _ _ hpos]
    exact ⟨_, List.getElem_mem hpos, rfl⟩
  unfold encode83Name
  cases hdot : lastDot name with
  | none =>
    dsimp only
    split
    · next hpos => exact .inr (hhead hpos.2)
    · exact .inl rfl
  | some dot =>
    have hlt : dot < name.length := by simpa using List.mem_of_find?_eq_some hdot
    dsimp only
    rw [if_pos (by decide)]
    split
    · exact .inr (hhead (by omega))
    · exact .inl rfl

/-- A file with an ASCII name is neither taken for the end of the directory nor for deleted. -/
theorem encode83Name_first (h : ∀ b ∈ name, b ≠ 0 ∧ b < 128) :
    encode83Name name 0 ≠ entryEnd ∧ encode83Name name 0 ≠ entryFree := by
  rcases encode83Name_zero name with heq | ⟨b, hb, heq⟩
  · rw [heq]
    decide
  · rw [heq]
    exact upper_ascii (h b hb)

/-- The printable characters that a name may have besides its dot. -/
def NameChar (b : UInt8) : Prop := 33 ≤ b ∧ b ≤ 126 ∧ b ≠ 46

/-- One to eight characters, and up to three more behind a dot. -/
structure Is83 (name base ext : List UInt8) : Prop where
  base_pos : 0 < base.length
  base_le : base.length ≤ 8
  ext_le : ext.length ≤ 3
  baseChar : ∀ b ∈ base, NameChar b
  extChar : ∀ b ∈ ext, NameChar b
  eq : name = if ext = [] then base else base ++ 46 :: ext

private theorem find_last {p : Nat → Bool} {k n : Nat} (hk : k < n) (hp : p k)
    (hlast : ∀ j, k < j → j < n → p j = false) : (List.range n).reverse.find? p = some k := by
  induction n with
  | zero => omega
  | succ n ih =>
    rw [List.range_succ, List.reverse_append, List.reverse_singleton, List.singleton_append]
    by_cases hkn : k = n
    · subst hkn
      exact List.find?_cons_of_pos hp
    · rw [List.find?_cons_of_neg (by simp [hlast n (by omega) (by omega)])]
      exact ih (by omega) fun j hj hjn => hlast j hj (by omega)

private theorem getD_ne_dot {l : List UInt8} (h : 46 ∉ l) {j : Nat} (hj : j < l.length) :
    (l.getD j 0 == 46) = false := by
  rw [List.getD_eq_getElem _ _ hj]
  exact beq_false_of_ne fun he => h (he ▸ List.getElem_mem hj)

theorem lastDot_plain (h : 46 ∉ name) : lastDot name = none := by
  refine List.find?_eq_none.mpr fun i hi => ?_
  simp only [List.mem_reverse, List.mem_range] at hi
  rw [getD_ne_dot h hi]
  decide

theorem lastDot_dot (h : 46 ∉ ext) : lastDot (base ++ 46 :: ext) = some base.length := by
  refine find_last (by simp) (by simp) fun j hj hjn => ?_
  rw [List.length_append, List.length_cons] at hjn
  obtain ⟨i, rfl⟩ : ∃ i, j = base.length + (i + 1) := ⟨j - base.length - 1, by omega⟩
  rw [List.getD_append_right _ _ _ _ (by omega), Nat.add_sub_cancel_left, List.getD_cons_succ]
  exact getD_ne_dot h (by omega)

/-- A part of a name cut to `n` bytes or filled up with spaces. -/
def field (n : Nat) (l : List UInt8) : List UInt8 := l.take n ++ List.replicate (n - l.length) 32

@[simp] theorem field_length (n : Nat) (l : List UInt8) : (field n l).length = n := by
  simp [field]
  omega

theorem getElem_field {n i : Nat} {l : List UInt8} (hi : i < (field n l).length) :
    (field n l)[i] = l.getD i 32 := by
  have hin : i < n := by simpa using hi
  unfold field at hi ⊢
  by_cases hl : i < l.length
  · rw [List.getElem_append_left (by simp; omega), List.getElem_take, List.getD_eq_getElem _ _ hl]
  · rw [List.getElem_append_right (by simp; omega), List.getElem_replicate, List.getD_eq_default _ _ (by omega)]

private theorem getD_map_upper (l : List UInt8) (i : Nat) :
    (l.map upper).getD i 32 = if i < l.length then upper (l.getD i 0) else 32 := by
  by_cases hi : i < l.length
  · simp [hi]
  · simp [hi]

private theorem ofFn_parts {raw : RawName} {b e : List UInt8}
    (h : ∀ k : Fin 11, raw k = if k.val < 8 then b.getD k 32 else e.getD (k - 8) 32) :
    List.ofFn raw = field 8 b ++ field 3 e := by
  apply List.ext_getElem
  · simp
  · intro i hi hi'
    rw [List.getElem_ofFn, h]
    rw [List.length_ofFn] at hi
    dsimp only
    by_cases h8 : i < 8
    · rw [if_pos h8, List.getElem_append_left (by simpa using h8), getElem_field]
    · rw [if_neg h8, List.getElem_append_right (by simp; omega), getElem_field]
      simp

/-- The eleven bytes of a name without a dot, and of one with its last dot behind `base`. -/
theorem ofFn_encode_plain (h : 46 ∉ name) :
    List.ofFn (encode83Name name) = field 8 (name.map upper) ++ field 3 [] := by
  refine ofFn_parts fun k => ?_
  rw [encode83Name, lastDot_plain h, getD_map_upper]
  by_cases hk : k.val < 8
  · simp [hk]
  · simp [hk]

theorem ofFn_encode_dot (h : 46 ∉ ext) :
    List.ofFn (encode83Name (base ++ 46 :: ext)) = field 8 (base.map upper) ++ field 3 (ext.map upper) := by
  refine ofFn_parts fun k => ?_
  rw [encode83Name, lastDot_dot h, getD_map_upper, getD_map_upper]
  dsimp only
  by_cases hk : k.val < 8
  · rw [if_pos hk, if_pos hk]
    by_cases hkb : k.val < base.length
    · rw [if_pos hkb, if_pos hkb, List.getD_append _ _ _ _ hkb]
    · rw [if_neg hkb, if_neg hkb]
  · rw [if_neg hk, if_neg hk, List.length_append, List.length_cons]
    by_cases hke : k.val - 8 < ext.length
    · rw [if_pos (by omega), if_pos hke, List.getD_append_right _ _ _ _ (by omega),
        show base.length + 1 + (k.val - 8) - base.length = k.val - 8 + 1 by omega, List.getD_cons_succ]
    · rw [if_neg (by omega), if_neg hke]

private theorem takeWhile_field (n : Nat) (l : List UInt8) :
    (field n l).takeWhile (· != 32) = (l.take n).takeWhile (· != 32) := by
  rw [field, List.takeWhile_append]
  split
  · next hl =>
    rw [List.takeWhile_replicate]
    simpa using ((List.takeWhile_sublist (· != 32)).eq_of_length hl).symm
  · rfl

private theorem any_field (n : Nat) (l : List UInt8) :
    (field n l).any (· != 32) = (l.take n).any (· != 32) := by
  rw [field, List.any_append]
  simp

/-- How listings show a name, given its parts. -/
theorem format83Name_parts {raw : RawName} {b e : List UInt8} (h : List.ofFn raw = field 8 b ++ field 3 e) :
    format83Name raw = (b.take 8).takeWhile (· != 32) ++
      if (e.take 3).any (· != 32) then 46 :: (e.take 3).takeWhile (· != 32) else [] := by
  unfold format83Name RawName.base RawName.ext
  rw [h, List.take_left' (by simp), List.drop_left' (by simp), takeWhile_field, takeWhile_field, any_field]

theorem upper_eq_space : upper b = 32 ↔ b = 32 := by
  rw [← UInt8.toNat_inj, ← UInt8.toNat_inj, upper_toNat]
  change _ = 32 ↔ b.toNat = 32
  split <;> omega

theorem upper_upper (b : UInt8) : upper (upper b) = upper b := by
  have h := upper_toNat b
  rw [← UInt8.toNat_inj, upper_toNat, h]
  split
  · exact if_neg (by omega)
  · rfl

theorem upper_eq_zero : upper b = 0 ↔ b = 0 := by
  rw [← UInt8.toNat_inj, ← UInt8.toNat_inj, upper_toNat]
  change _ = 0 ↔ b.toNat = 0
  split <;> omega

/-- No name makes an entry that ends the directory. -/
theorem encode83Name_not_end (h : 0 ∉ name) : encode83Name name 0 ≠ entryEnd := by
  rcases encode83Name_zero name with heq | ⟨b, hb, heq⟩
  · rw [heq]
    decide
  · rw [heq]
    intro hz
    exact h (upper_eq_zero.mp hz ▸ hb)

theorem any_map_upper (l : List UInt8) : (l.map upper).any (· != 32) = l.any (· != 32) := by
  rw [List.any_map]
  congr 1
  funext b
  simp [bne, upper_eq_space]

theorem map_upper_takeWhile (l : List UInt8) :
    (l.map upper).takeWhile (· != 32) = (l.takeWhile (· != 32)).map upper := by
  rw [List.takeWhile_map]
  congr 2
  funext b
  simp [bne, upper_eq_space]

namespace Is83
variable (h : Is83 name base ext)
include h

theorem ascii : ∀ b ∈ name, b ≠ 0 ∧ b < 128 := by
  have hchar : ∀ b, NameChar b → b ≠ 0 ∧ b < 128 := by
    intro b hb
    refine ⟨fun he => ?_, UInt8.lt_of_le_of_lt hb.2.1 (by decide)⟩
    subst he
    exact absurd hb.1 (by decide)
  intro b hb
  rw [h.eq] at hb
  split at hb
  · exact hchar b (h.baseChar b hb)
  · rcases List.mem_append.mp hb with hb | hb
    · exact hchar b (h.baseChar b hb)
    · rcases List.mem_cons.mp hb with rfl | hb
      · decide
      · exact hchar b (h.extChar b hb)

omit h in
private theorem takeWhile_nameChar {l : List UInt8} (hl : ∀ b ∈ l, NameChar b) :
    (l.map upper).takeWhile (· != 32) = l.map upper := by
  rw [map_upper_takeWhile, List.takeWhile_eq_self_iff.mpr]
  intro b hb
  refine bne_iff_ne.mpr fun he => ?_
  have hlo := (hl b hb).1
  rw [he] at hlo
  exact absurd hlo (by decide)

/-- Listings show the name in upper case. -/
theorem format_encode : format83Name (encode83Name name) = name.map upper := by
  have hb : (base.map upper).take 8 = base.map upper := List.take_of_length_le (by simpa using h.base_le)
  have he : (ext.map upper).take 3 = ext.map upper := List.take_of_length_le (by simpa using h.ext_le)
  by_cases hx : ext = []
  · have hname : name = base := by simpa [hx] using h.eq
    rw [format83Name_parts (ofFn_encode_plain fun hd => (h.baseChar 46 (hname ▸ hd)).2.2 rfl), hname, hb,
      takeWhile_nameChar h.baseChar]
    simp
  · have hname : name = base ++ 46 :: ext := by simpa [hx] using h.eq
    have hany : (ext.map upper).any (· != 32) = true := by
      obtain ⟨c, cs, rfl⟩ := List.exists_cons_of_ne_nil hx
      have hc := takeWhile_nameChar h.extChar
      rw [List.map_cons, List.takeWhile_cons] at hc
      split at hc
      · next hne => simp only [List.map_cons, List.any_cons, hne, Bool.true_or]
      · cases hc
    rw [hname, format83Name_parts (ofFn_encode_dot fun hd => (h.extChar 46 hd).2.2 rfl), hb, he, if_pos hany,
      takeWhile_nameChar h.baseChar, takeWhile_nameChar h.extChar, List.map_append, List.map_cons]
    rfl

end Is83

end GeckoOS.Fs.Fat32
