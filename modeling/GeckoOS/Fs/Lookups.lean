import GeckoOS.Fs.Isolation
import GeckoOS.Fs.Names

/-! The two ways of finding a file: by its listed name among the files of a
listing, and by the eleven bytes of its entry. -/
namespace GeckoOS.Fs.Fat32
open Lib

variable {name base ext : List UInt8} {b : UInt8}

/-- Names that an entry holds without loss: at most eight characters, and one to
three more behind the last dot, none of them a space. -/
inductive Short : List UInt8 → Prop
  | plain {base : List UInt8} : 46 ∉ base → 32 ∉ base → base.length ≤ 8 → Short base
  | dotted {base ext : List UInt8} : 46 ∉ ext → 32 ∉ base → 32 ∉ ext → base.length ≤ 8 →
      ext ≠ [] → ext.length ≤ 3 → Short (base ++ 46 :: ext)

/-- What formatting keeps of a part with room for `n` bytes. -/
private def cut (n : Nat) (l : List UInt8) : List UInt8 := (l.take n).takeWhile (· != 32)

private theorem cut_sublist (n : Nat) (l : List UInt8) : (cut n l).Sublist l :=
  (List.takeWhile_sublist _).trans (List.take_sublist _ _)

private theorem cut_eq_iff (n : Nat) (l : List UInt8) : cut n l = l ↔ l.length ≤ n ∧ 32 ∉ l := by
  constructor
  · intro h
    refine ⟨?_, fun hm => ?_⟩
    · have hlen := congrArg List.length h
      have hle := (List.takeWhile_sublist (· != 32) (l := l.take n)).length_le
      rw [List.length_take] at hle
      unfold cut at hlen
      omega
    · rw [← h] at hm
      exact absurd (List.mem_takeWhile_imp hm) (by simp)
  · rintro ⟨hn, hs⟩
    rw [cut, List.take_of_length_le hn, List.takeWhile_eq_self_iff]
    intro b hb
    exact bne_iff_ne.mpr fun he => hs (he ▸ hb)

private theorem map_upper_cut (n : Nat) (l : List UInt8) :
    ((l.map upper).take n).takeWhile (· != 32) = (cut n l).map upper := by
  rw [← List.map_take, map_upper_takeWhile, cut]

private theorem map_upper_upper (l : List UInt8) : (l.map upper).map upper = l.map upper := by
  rw [List.map_map]
  exact List.map_congr_left fun b _ => upper_upper b

theorem sameName_iff (a b : List UInt8) : Volume.sameName a b = true ↔ a.map upper = b.map upper := by
  induction a generalizing b with
  | nil => cases b <;> simp [Volume.sameName]
  | cons x a ih =>
    cases b with
    | nil => simp [Volume.sameName]
    | cons y b => simp [Volume.sameName, ih]

private theorem format_plain (h : 46 ∉ name) : format83Name (encode83Name name) = (cut 8 name).map upper := by
  rw [format83Name_parts (ofFn_encode_plain h), map_upper_cut]
  simp

private theorem format_dot (h : 46 ∉ ext) : format83Name (encode83Name (base ++ 46 :: ext)) =
    (cut 8 base).map upper ++ if (ext.take 3).any (· != 32) then 46 :: (cut 3 ext).map upper else [] := by
  rw [format83Name_parts (ofFn_encode_dot h), map_upper_cut, map_upper_cut, ← List.map_take, any_map_upper]

private theorem listed_plain (h : 46 ∉ name) :
    (format83Name (encode83Name name)).map upper = name.map upper ↔ name.length ≤ 8 ∧ 32 ∉ name := by
  rw [format_plain h, map_upper_upper, ← cut_eq_iff]
  constructor
  · intro he
    exact (cut_sublist 8 name).eq_of_length (by simpa using congrArg List.length he)
  · intro he
    rw [he]

private theorem listed_dot (h : 46 ∉ ext) :
    (format83Name (encode83Name (base ++ 46 :: ext))).map upper = (base ++ 46 :: ext).map upper ↔
      (base.length ≤ 8 ∧ 32 ∉ base) ∧ (ext.length ≤ 3 ∧ 32 ∉ ext) ∧ ext ≠ [] := by
  have hb := (cut_sublist 8 base).length_le
  have hx := (cut_sublist 3 ext).length_le
  rw [format_dot h, ← cut_eq_iff, ← cut_eq_iff, List.map_append, map_upper_upper]
  constructor
  · intro he
    have hlen := congrArg List.length he
    split at hlen
    · next hany =>
      simp only [List.length_append, List.length_map, List.length_cons] at hlen
      refine ⟨(cut_sublist 8 base).eq_of_length (by omega), (cut_sublist 3 ext).eq_of_length (by omega), ?_⟩
      rintro rfl
      simp at hany
    · simp only [List.length_append, List.length_map, List.length_cons, List.map_nil, List.length_nil] at hlen
      omega
  · rintro ⟨hbase, hext, hne⟩
    have hany : (ext.take 3).any (· != 32) = true := by
      obtain ⟨hlen, hsp⟩ := (cut_eq_iff 3 ext).mp hext
      obtain ⟨c, cs, rfl⟩ := List.exists_cons_of_ne_nil hne
      simp only [List.take_of_length_le hlen, List.any_cons, Bool.or_eq_true, bne_iff_ne]
      exact .inl fun hc => hsp (by simp [hc])
    rw [if_pos hany, hbase, hext, List.map_cons, map_upper_upper, List.map_append, List.map_cons]

private theorem exists_last_dot (h : 46 ∈ name) : ∃ base ext, name = base ++ 46 :: ext ∧ 46 ∉ ext := by
  obtain ⟨l₁, l₂, heq, hnot⟩ := List.eq_append_cons_of_mem (List.mem_reverse.mpr h)
  refine ⟨l₂.reverse, l₁.reverse, ?_, by simpa using hnot⟩
  rw [← List.reverse_reverse name, heq]
  simp

private theorem nul_not_mem_upper {l : List UInt8} (n : Nat) (h : 0 ∉ l) : 0 ∉ (cut n l).map upper := by
  intro h0
  obtain ⟨b, hb, hz⟩ := List.mem_map.mp h0
  exact h (upper_eq_zero.mp hz ▸ (cut_sublist n l).subset hb)

private theorem nul_not_mem_format (h : 0 ∉ name) : 0 ∉ format83Name (encode83Name name) := by
  by_cases hdot : 46 ∈ name
  · obtain ⟨base, ext, rfl, hext⟩ := exists_last_dot hdot
    rw [List.mem_append, List.mem_cons, not_or, not_or] at h
    rw [format_dot hext, List.mem_append, not_or]
    refine ⟨nul_not_mem_upper 8 h.1, ?_⟩
    split
    · rw [List.mem_cons, not_or]
      exact ⟨by decide, nul_not_mem_upper 3 h.2.2⟩
    · exact List.not_mem_nil
  · rw [format_plain hdot]
    exact nul_not_mem_upper 8 h

/-- An entry made for a name is listed under that name exactly if the name is short. -/
theorem listed_encode_iff (hname : 0 ∉ name) :
    Volume.sameName ((format83Name (encode83Name name)).takeWhile (· != 0)) name = true ↔ Short name := by
  have hnul : (format83Name (encode83Name name)).takeWhile (· != 0) = format83Name (encode83Name name) := by
    rw [List.takeWhile_eq_self_iff]
    intro b hb
    exact bne_iff_ne.mpr fun he => nul_not_mem_format hname (he ▸ hb)
  rw [hnul, sameName_iff]
  constructor
  · intro he
    by_cases hdot : 46 ∈ name
    · obtain ⟨base, ext, rfl, hext⟩ := exists_last_dot hdot
      obtain ⟨⟨hb8, hbs⟩, ⟨hx3, hxs⟩, hne⟩ := (listed_dot hext).mp he
      exact .dotted hext hbs hxs hb8 hne hx3
    · obtain ⟨h8, hs⟩ := (listed_plain hdot).mp he
      exact .plain hdot hs h8
  · intro hshort
    cases hshort with
    | plain hdot hs h8 => exact (listed_plain hdot).mpr ⟨h8, hs⟩
    | dotted hext hbs hxs hb8 hne hx3 => exact (listed_dot hext).mpr ⟨⟨hb8, hbs⟩, ⟨hx3, hxs⟩, hne⟩

theorem Is83.short (h : Is83 name base ext) : Short name := by
  have hspace : ∀ l : List UInt8, (∀ b ∈ l, NameChar b) → 32 ∉ l :=
    fun l hl hm => absurd (hl 32 hm).1 (by decide)
  have hdot : ∀ l : List UInt8, (∀ b ∈ l, NameChar b) → 46 ∉ l := fun l hl hm => (hl 46 hm).2.2 rfl
  rw [h.eq]
  split
  · exact .plain (hdot base h.baseChar) (hspace base h.baseChar) h.base_le
  · next hne =>
    exact .dotted (hdot ext h.extChar) (hspace base h.baseChar) (hspace ext h.extChar) h.base_le hne h.ext_le

/-- What an entry keeps of a name: eight bytes in front of the last dot and three behind it. -/
def keptBase (name : List UInt8) : List UInt8 :=
  match lastDot name with
  | some dot => (name.take dot).take 8
  | none => name.take 8

def keptExt (name : List UInt8) : List UInt8 :=
  match lastDot name with
  | some dot => (name.drop (dot + 1)).take 3
  | none => []

/-- No space stands in front of another character. -/
def SpacesLast (l : List UInt8) : Prop := ∀ b ∈ l.dropWhile (· != 32), b = 32

instance (l : List UInt8) : Decidable (SpacesLast l) := inferInstanceAs (Decidable (∀ b ∈ _, _))

/-- In neither part a space stands in front of another character, and the first
part has a dot only in front of an extension. -/
def Relistable (name : List UInt8) : Prop :=
  SpacesLast (keptBase name) ∧ SpacesLast (keptExt name) ∧ ((∀ b ∈ keptExt name, b = 32) → 46 ∉ keptBase name)

theorem upper_eq_dot : upper b = 46 ↔ b = 46 := by
  rw [← UInt8.toNat_inj, ← UInt8.toNat_inj, upper_toNat]
  change _ = 46 ↔ b.toNat = 46
  split <;> omega

private theorem dot_mem_map_upper (l : List UInt8) : 46 ∈ l.map upper ↔ 46 ∈ l := by
  simp [List.mem_map, upper_eq_dot]

private theorem field_take (n : Nat) (l : List UInt8) :
    field n l = l.take n ++ List.replicate (n - (l.take n).length) 32 := by
  rw [field, List.length_take]
  congr 2
  omega

/-- Cutting a part at its first space loses nothing exactly if spaces follow only. -/
private theorem field_cut_iff (n : Nat) (l : List UInt8) :
    field n ((cut n l).map upper) = field n (l.map upper) ↔ SpacesLast (l.take n) := by
  have hsplit : cut n l ++ (l.take n).dropWhile (· != 32) = l.take n := List.takeWhile_append_dropWhile
  have hlen := congrArg List.length hsplit
  have hle : (l.take n).length ≤ n := by simp
  rw [List.length_append] at hlen
  have hcut : field n ((cut n l).map upper) = (cut n l).map upper ++
      List.replicate ((l.take n).dropWhile (· != 32)).length 32 ++ List.replicate
        (n - (l.take n).length) 32 := by
    rw [field, List.take_of_length_le (by rw [List.length_map]; omega), List.append_assoc,
      List.replicate_append_replicate,
      List.length_map]
    congr 2
    omega
  have hfull : field n (l.map upper) = (cut n l).map upper ++ ((l.take n).dropWhile (· != 32)).map upper ++
      List.replicate (n - (l.take n).length) 32 := by
    rw [field_take, ← List.map_take, List.length_map, ← List.map_append, hsplit]
  rw [hcut, hfull, List.append_left_inj, List.append_right_inj, eq_comm, List.eq_replicate_iff]
  simp [SpacesLast, upper_eq_space]

private theorem encode_eq_iff {raw : RawName} {b e b' e' : List UInt8}
    (h : List.ofFn raw = field 8 b ++ field 3 e)
    {raw' : RawName} (h' : List.ofFn raw' = field 8 b' ++ field 3 e') :
    raw' = raw ↔ field 8 b' = field 8 b ∧ field 3 e' = field 3 e := by
  rw [← List.ofFn_inj, h, h']
  refine ⟨fun heq => List.append_inj heq (by simp), fun heq => ?_⟩
  rw [heq.1, heq.2]

private theorem encode_listed_plain (h : 46 ∉ name) :
    encode83Name (format83Name (encode83Name name)) = encode83Name name ↔ SpacesLast (name.take 8) := by
  have hdot : 46 ∉ (cut 8 name).map upper :=
    fun hm => h ((cut_sublist 8 name).subset ((dot_mem_map_upper _).mp hm))
  rw [format_plain h, encode_eq_iff (ofFn_encode_plain h) (ofFn_encode_plain hdot), map_upper_upper,
    field_cut_iff]
  simp

/-- With an extension the dot in front of it is the last one again. -/
private theorem encode_listed_ext (h : 46 ∉ ext) (hany : (ext.take 3).any (· != 32) = true) :
    encode83Name (format83Name (encode83Name (base ++ 46 :: ext))) = encode83Name (base ++ 46 :: ext) ↔
      SpacesLast (base.take 8) ∧ SpacesLast (ext.take 3) := by
  have hdot : 46 ∉ (cut 3 ext).map upper :=
    fun hm => h ((cut_sublist 3 ext).subset ((dot_mem_map_upper _).mp hm))
  rw [format_dot h, if_pos hany, encode_eq_iff (ofFn_encode_dot h) (ofFn_encode_dot hdot), map_upper_upper,
    map_upper_upper, field_cut_iff, field_cut_iff]

/-- Without one a dot of the first part becomes the last one. -/
private theorem encode_listed_no_ext (h : 46 ∉ ext) (hany : (ext.take 3).any (· != 32) = false) :
    encode83Name (format83Name (encode83Name (base ++ 46 :: ext))) = encode83Name (base ++ 46 :: ext) ↔
      SpacesLast (base.take 8) ∧ 46 ∉ base.take 8 := by
  have hsplit : cut 8 base ++ (base.take 8).dropWhile (· != 32) = base.take 8 := List.takeWhile_append_dropWhile
  have hblank : field 3 [] = field 3 (ext.map upper) := by
    have hext : (cut 3 ext) = [] := by
      rw [cut, List.takeWhile_eq_nil_iff]
      intro hpos
      have := List.any_eq_false.mp hany _ (List.getElem_mem hpos)
      simpa using this
    have hlast : SpacesLast (ext.take 3) := by
      intro b hb
      have := List.any_eq_false.mp hany b ((List.dropWhile_sublist _).subset hb)
      simpa using this
    have hfield := (field_cut_iff 3 ext).mpr hlast
    rwa [hext] at hfield
  rw [format_dot h, if_neg (by simp [hany]), List.append_nil]
  by_cases hdot : 46 ∈ cut 8 base
  · obtain ⟨front, back, heq, hback⟩ := exists_last_dot ((dot_mem_map_upper _).mpr hdot)
    have hmem : 46 ∈ base.take 8 := by
      rw [← hsplit]
      exact List.mem_append_left _ hdot
    rw [heq, encode_eq_iff (ofFn_encode_dot h) (ofFn_encode_dot hback)]
    refine iff_of_false (fun hsame => ?_) fun hcond => hcond.2 hmem
    -- the dot is a space in the one field and a dot in the other
    have hlt : front.length < 8 := by
      have hle : ((cut 8 base).map upper).length ≤ 8 := by
        rw [List.length_map]
        exact (List.takeWhile_sublist _).length_le.trans (by simp)
      rw [heq, List.length_append, List.length_cons] at hle
      omega
    have hbyte := congrArg (·[front.length]?) hsame.1
    have hfront : (field 8 (front.map upper))[front.length]? = some 32 := by
      rw [List.getElem?_eq_getElem (by simpa using hlt), getElem_field, List.getD_eq_default _ _ (by simp)]
    have hbase : (field 8 (base.map upper))[front.length]? = some 46 := by
      have hpre : base.map upper = (front ++ 46 :: back) ++ (base.drop (cut 8 base).length).map upper := by
        have hcut : cut 8 base <+: base := (List.takeWhile_prefix _).trans (List.take_prefix _ _)
        rw [← heq, ← List.map_append, List.prefix_iff_eq_append.mp hcut]
      rw [List.getElem?_eq_getElem (by simpa using hlt), getElem_field, hpre, List.append_assoc,
        List.getD_append_right _ _ _ _ le_rfl]
      simp
    rw [hfront, hbase] at hbyte
    cases hbyte
  · have hplain : 46 ∉ (cut 8 base).map upper := fun hm => hdot ((dot_mem_map_upper _).mp hm)
    rw [encode_eq_iff (ofFn_encode_dot h) (ofFn_encode_plain hplain), map_upper_upper, field_cut_iff]
    refine and_congr_right fun hlast => iff_of_true hblank fun hm => ?_
    rw [← hsplit] at hm
    rcases List.mem_append.mp hm with hm | hm
    · exact hdot hm
    · exact absurd (hlast 46 hm) (by decide)

/-- The name under which an entry is listed leads back to the same eleven bytes
exactly if the name it was made for loses nothing but its end. -/
theorem encode_listed_iff (name : List UInt8) :
    encode83Name (format83Name (encode83Name name)) = encode83Name name ↔ Relistable name := by
  unfold Relistable keptBase keptExt
  by_cases hdot : 46 ∈ name
  · obtain ⟨base, ext, rfl, hext⟩ := exists_last_dot hdot
    have hdrop : (base ++ 46 :: ext).drop (base.length + 1) = ext := by
      rw [← List.drop_drop, List.drop_left]
      rfl
    rw [lastDot_dot hext]
    dsimp only
    rw [List.take_left, hdrop]
    cases hany : (ext.take 3).any (· != 32) with
    | true =>
      have hsome : ¬ ∀ b ∈ ext.take 3, b = 32 := by
        obtain ⟨b, hb, hne⟩ := List.any_eq_true.mp hany
        exact fun hall => absurd (hall b hb) (by simpa using hne)
      rw [encode_listed_ext hext hany]
      tauto
    | false =>
      have hall : ∀ b ∈ ext.take 3, b = 32 := fun b hb => by simpa using List.any_eq_false.mp hany b hb
      have hlast : SpacesLast (ext.take 3) := fun b hb => hall b ((List.dropWhile_sublist _).subset hb)
      rw [encode_listed_no_ext hext hany]
      tauto
  · have hnil : SpacesLast [] := by simp [SpacesLast]
    have hfree : 46 ∉ name.take 8 := fun hm => hdot (List.mem_of_mem_take hm)
    rw [encode_listed_plain hdot, lastDot_plain hdot]
    simp [hnil, hfree]

/-- The entry made for "a b" is listed as "A". -/
theorem inner_space_not_relisted :
    ¬ ∀ name : List UInt8, (∀ b ∈ name, 32 ≤ b ∧ b ≤ 126) →
      encode83Name (format83Name (encode83Name name)) = encode83Name name := by
  intro hall
  have hsame := hall [97, 32, 98] (by decide +kernel)
  revert hsame
  decide +kernel

namespace Volume
variable (vol : Volume)

/-- The entry that readfile, the commands and `fat32_append_file` find. -/
def fileSlot (img : Image) (root : List Nat) (name : List UInt8) : Option Slot :=
  (vol.visible img root).find? (ListedAs img name)

/-- The entry that `fat32_write_file` and `fat32_delete_file` find. -/
def rawSlot (img : Image) (root : List Nat) (name : List UInt8) : Option Slot :=
  (vol.visible img root).find? fun t => (img.entry t).rawName == encode83Name name

/-- An entry with the bytes of the name is a file and the name is short, and no
file with other bytes is listed under the name in front of that entry. -/
def LookupsFit (img : Image) (root : List Nat) (name : List UInt8) : Prop :=
  (∀ t ∈ vol.visible img root, (img.entry t).rawName = encode83Name name →
    (img.entry t).isDirectory = false ∧ Short name) ∧
  ∀ front t back, vol.visible img root = front ++ t :: back → ListedAs img name t →
    (img.entry t).rawName ≠ encode83Name name → ∃ u ∈ front, (img.entry u).rawName = encode83Name name

end Volume

/-- Two searches agree if the one finds what the other does and nothing in front of it. -/
private theorem find?_eq_find?_iff {α : Type*} {p q : α → Bool} {l : List α}
    (hq : l.Pairwise fun a b => ¬ (q a ∧ q b)) :
    l.find? p = l.find? q ↔ (∀ a ∈ l, q a → p a) ∧
      ∀ front a back, l = front ++ a :: back → p a → ¬ q a → ∃ b ∈ front, q b := by
  induction l with
  | nil => simp
  | cons x l ih =>
    obtain ⟨hx, hrest⟩ := List.pairwise_cons.mp hq
    cases hp : p x with
    | true =>
      cases hqx : q x with
      | true =>
        rw [List.find?_cons_of_pos hp, List.find?_cons_of_pos hqx]
        refine iff_of_true rfl ⟨?_, ?_⟩
        · rintro a ha hqa
          rcases List.mem_cons.mp ha with rfl | ha
          · exact hp
          · exact absurd ⟨hqx, hqa⟩ (hx a ha)
        · rintro front a back he - hna
          cases front with
          | nil =>
            obtain ⟨rfl, -⟩ := List.cons.inj he
            exact absurd hqx hna
          | cons y front =>
            obtain ⟨rfl, -⟩ := List.cons.inj he
            exact ⟨x, by simp, hqx⟩
      | false =>
        rw [List.find?_cons_of_pos hp, List.find?_cons_of_neg (by simp [hqx])]
        refine iff_of_false (fun he => ?_) fun h => ?_
        · have := List.find?_some he.symm
          rw [hqx] at this
          cases this
        · obtain ⟨b, hb, -⟩ := h.2 [] x l rfl hp (by simp [hqx])
          cases hb
    | false =>
      cases hqx : q x with
      | true =>
        rw [List.find?_cons_of_neg (by simp [hp]), List.find?_cons_of_pos hqx]
        refine iff_of_false (fun he => ?_) fun h => ?_
        · have := List.find?_some he
          rw [hp] at this
          cases this
        · have := h.1 x (by simp) hqx
          rw [hp] at this
          cases this
      | false =>
        rw [List.find?_cons_of_neg (by simp [hp]), List.find?_cons_of_neg (by simp [hqx]), ih hrest]
        refine and_congr (by simp [hqx]) ⟨fun h => ?_, fun h => ?_⟩
        · rintro front a back he ha hna
          cases front with
          | nil =>
            obtain ⟨rfl, -⟩ := List.cons.inj he
            rw [hp] at ha
            cases ha
          | cons y front =>
            obtain ⟨-, he⟩ := List.cons.inj he
            obtain ⟨b, hb, hqb⟩ := h front a back he ha hna
            exact ⟨b, by simp [hb], hqb⟩
        · rintro front a back he ha hna
          obtain ⟨b, hb, hqb⟩ := h (x :: front) a back (by rw [he]; rfl) ha hna
          rcases List.mem_cons.mp hb with rfl | hb
          · rw [hqx] at hqb
            cases hqb
          · exact ⟨b, hb, hqb⟩

variable {vol : Volume} {d : Drive} {img : Image} {root : List Nat}

/-- What both lookups find on a directory of distinct raw names, and that it is
the same exactly if the name fits the directory. -/
theorem lookups_agree_iff (hg : vol.Geometry) (h : vol.Shows d img)
    (hr : vol.Chain img.fat vol.rootCluster root)
    (hd : (vol.visible img root).Pairwise fun t u => (img.entry t).rawName ≠ (img.entry u).rawName)
    (hname : ∀ b ∈ name, b ≠ 0 ∧ b < 128) :
    (vol.getRootEntries d).map (Volume.findListed name) =
        some ((vol.fileSlot img root name).map fun t => (img.entry t).toFile) ∧
      vol.search d (.findMatch (encode83Name name)) =
        some ((vol.rawSlot img root name).map fun t => ⟨vol.slotLba t, t.idx, img.entry t⟩) ∧
      (vol.fileSlot img root name = vol.rawSlot img root name ↔ vol.LookupsFit img root name) := by
  refine ⟨?_, h.search_visible hg hr _, ?_⟩
  · rw [h.rootEntries_visible hg hr, Option.map_some, findListed_map]
    rfl
  · have hshort := listed_encode_iff fun h0 => (hname 0 h0).1 rfl
    unfold Volume.fileSlot Volume.rawSlot Volume.LookupsFit
    rw [find?_eq_find?_iff (hd.imp fun hne hboth => hne (by simp_all))]
    simp only [beq_iff_eq]
    refine and_congr_left fun _ => forall₂_congr fun t _ => forall_congr' fun hraw => ?_
    rw [Volume.ListedAs, hraw, Bool.and_eq_true, Bool.not_eq_true', hshort]

private theorem small_visible : smallVolume.visible (smallVolume.image smallDrive) [2] = [smallSlot] := by
  decide +kernel

private theorem small_distinct : (smallVolume.visible (smallVolume.image smallDrive) [2]).Pairwise fun t u =>
    ((smallVolume.image smallDrive).entry t).rawName ≠ ((smallVolume.image smallDrive).entry u).rawName := by
  rw [small_visible]
  exact List.pairwise_singleton _ _

/-- The file A is found as a by both lookups. -/
theorem lookups_agree_iff_small :
    smallVolume.fileSlot (smallVolume.image smallDrive) [2] [97] = some smallSlot ∧
      smallVolume.LookupsFit (smallVolume.image smallDrive) [2] [97] := by
  have hfile : smallVolume.fileSlot (smallVolume.image smallDrive) [2] [97] = some smallSlot := by
    decide +kernel
  have hraw : smallVolume.rawSlot (smallVolume.image smallDrive) [2] [97] = some smallSlot := by decide +kernel
  have hname : ∀ b ∈ ([97] : List UInt8), b ≠ 0 ∧ b < 128 := by decide +kernel
  obtain ⟨-, -, hiff⟩ := lookups_agree_iff small_geometry small_shows small_layout.rootChain
    small_distinct hname
  exact ⟨hfile, hiff.mp (hfile.trans hraw.symm)⟩

/-- Under the name "A." only the lookup by raw bytes finds the file A. -/
theorem trailing_dot_lookups_differ :
    smallVolume.Geometry ∧ smallVolume.Shows smallDrive (smallVolume.image smallDrive) ∧
      smallVolume.Chain (smallVolume.image smallDrive).fat smallVolume.rootCluster [2] ∧
      ((smallVolume.visible (smallVolume.image smallDrive) [2]).Pairwise fun t u =>
        ((smallVolume.image smallDrive).entry t).rawName ≠ ((smallVolume.image smallDrive).entry u).rawName) ∧
      smallVolume.rawSlot (smallVolume.image smallDrive) [2] [65, 46] = some smallSlot ∧
      smallVolume.fileSlot (smallVolume.image smallDrive) [2] [65, 46] = none :=
  ⟨small_geometry, small_shows, small_layout.rootChain, small_distinct, by decide +kernel, by decide +kernel⟩

end GeckoOS.Fs.Fat32
