import GeckoOS.Fs.Operations

/-! What an operation leaves alone: everything but the slot it works on and the
clusters of that slot. A successful one gives a layout again. -/
namespace GeckoOS.Fs.Fat32
open Lib

/-- `img'` differs from `img` at most at the slot `t`, its clusters and the free ones. -/
structure Volume.Frame (vol : Volume) (img img' : Image) (root : List Nat) (own : Slot → List Nat) (t : Slot) :
    Prop where
  rootFat : ∀ c ∈ root, img'.fat c = img.fat c
  entry : ∀ u ∈ vol.slots root, u ≠ t → img'.entry u = img.entry u
  fat : ∀ u ∈ vol.slots root, (img.entry u).isLive → u ≠ t → ∀ c ∈ own u, img'.fat c = img.fat c
  data : ∀ u ∈ vol.slots root, (img.entry u).isLive → u ≠ t → ∀ c ∈ own u, img'.data c = img.data c

variable {vol : Volume} {d : Drive} {img img' img₁ : Image} {root l : List Nat} {own : Slot → List Nat}
  {t u : Slot}
  {c : Nat} {raw : RawName} {name content : List UInt8} {e : DirEntry}

/-- An entry depends on its own cluster only. -/
theorem entry_congr (h : img'.data u.cluster = img.data u.cluster) : img'.entry u = img.entry u := by
  rw [Image.entry, Image.entry, h]

theorem place_fat_of_notMem (hc : c ∉ l) : (vol.place img l content).fat c = img.fat c := relink_of_notMem hc

theorem place_data_of_notMem (hc : c ∉ l) : (vol.place img l content).data c = img.data c := by
  funext s
  exact if_neg fun h => hc h.1

/-- What is still allocated was allocated and is not among the freed clusters. -/
theorem release_fat_ne_zero (h : (img.release l).fat c ≠ 0) : img.fat c ≠ 0 ∧ c ∉ l := by
  by_cases hc : c ∈ l
  · exact absurd (if_pos hc) h
  · exact ⟨fun hz => h ((if_neg hc).trans hz), hc⟩

theorem setEntry_data_of_ne (hc : c ≠ t.cluster) : (img.setEntry t e).data c = img.data c := by
  funext s
  exact if_neg fun h => hc h.1

namespace Volume.Frame

theorem refl (img : Image) (root : List Nat) (own : Slot → List Nat) (t : Slot) :
    vol.Frame img img root own t :=
  ⟨fun _ _ => rfl, fun _ _ _ => rfl, fun _ _ _ _ _ _ => rfl, fun _ _ _ _ _ _ => rfl⟩

theorem release (hl : vol.Layout img root own) (ht : t ∈ vol.slots root) (hlive : (img.entry t).isLive) :
    vol.Frame img (img.release (own t)) root own t where
  rootFat _ hc := if_neg fun h => hl.apartRoot t ht hlive h hc
  entry _ _ _ := rfl
  fat u hu hlu hut _ hc := if_neg fun h => hl.apart t ht u hu hlive hlu hut.symm h hc
  data _ _ _ _ _ _ := rfl

variable (hl : vol.Layout img root own) (hf : vol.Frame img img₁ root own t)
include hl hf

/-- A cluster that is free now belongs to nothing but perhaps the slot. -/
theorem free_notMem (hc : img₁.fat c = 0) :
    c ∉ root ∧ ∀ u ∈ vol.slots root, (img.entry u).isLive → u ≠ t → c ∉ own u := by
  constructor
  · intro h
    exact hl.rootChain.fat_ne_zero h (hf.rootFat c h ▸ hc)
  · intro u hu hlive hut h
    exact (hl.owned u hu hlive).fat_ne_zero h (hf.fat u hu hlive hut c h ▸ hc)

theorem place (content : List UInt8) :
    vol.Frame img (vol.place img₁ (vol.newChain img₁.fat content.length) content) root own t := by
  have hroot : ∀ c ∈ root, c ∉ vol.newChain img₁.fat content.length :=
    fun c hc h => (free_notMem hl hf (mem_newChain h).2.2).1 hc
  have hown : ∀ u ∈ vol.slots root, (img.entry u).isLive → u ≠ t →
      ∀ c ∈ own u, c ∉ vol.newChain img₁.fat content.length :=
    fun u hu hlive hut c hc h => (free_notMem hl hf (mem_newChain h).2.2).2 u hu hlive hut hc
  constructor
  · intro c hc
    rw [place_fat_of_notMem (hroot c hc), hf.rootFat c hc]
  · intro u hu hut
    rw [entry_congr (place_data_of_notMem (hroot _ (mem_slots.mp hu).1)), hf.entry u hu hut]
  · intro u hu hlive hut c hc
    rw [place_fat_of_notMem (hown u hu hlive hut c hc), hf.fat u hu hlive hut c hc]
  · intro u hu hlive hut c hc
    rw [place_data_of_notMem (hown u hu hlive hut c hc), hf.data u hu hlive hut c hc]

theorem setEntry (ht : t ∈ vol.slots root) (e : DirEntry) : vol.Frame img (img₁.setEntry t e) root own t where
  rootFat := hf.rootFat
  entry u hu hut := (entry_setEntry_of_ne img₁ e hut).trans (hf.entry u hu hut)
  fat := hf.fat
  data u hu hlive hut c hc := by
    have hne : c ≠ t.cluster := fun h => hl.apartRoot u hu hlive hc (h ▸ (mem_slots.mp ht).1)
    rw [setEntry_data_of_ne hne, hf.data u hu hlive hut c hc]

theorem storeAt (hg : vol.Geometry) (ht : t ∈ vol.slots root) (content : List UInt8) (entry : Nat → DirEntry) :
    vol.Frame img (vol.storeAt img₁ t content entry).2 root own t := by
  have hplace := place hl hf content
  rcases storeAt_result hg img₁ t content entry with ⟨-, he⟩ | ⟨-, -, he⟩
  · rw [he]
    exact setEntry hl hplace ht _
  · rw [he]
    exact hplace

/-- The layout with the slot's entry and chain replaced, or its entry removed. -/
theorem layout (ht : vol.BeforeEnd img root t) (hend : (img₁.entry t).isEnd = false)
    (hnew : (img₁.entry t).isLive → vol.Owns img₁.fat (img₁.entry t) l ∧ l.Disjoint root ∧
      ∀ u ∈ vol.slots root, (img.entry u).isLive → u ≠ t → l.Disjoint (own u)) :
    vol.Layout img₁ root (Function.update own t l) :=
  hl.replace hf.rootFat (fun u hu hut hlive => hf.fat u hu hlive hut) hf.entry
    (hl.ends.replace hl.rootChain.nodup ht hf.entry hend) hnew

end Volume.Frame

/-- No END entry comes before the slot that a new entry takes. -/
theorem ends_before_free (h : vol.freeSlot img root = some t) : vol.BeforeEnd img root t := by
  obtain ⟨-, as, bs, hs, has⟩ := List.find?_eq_some_iff_append.mp h
  refine ⟨as, bs, hs, fun u hu => ?_⟩
  have hu' := has u hu
  simp only [Bool.not_eq_eq_eq_not, Bool.not_true, Bool.or_eq_false_iff] at hu'
  exact hu'.2

/-- Stored content: the slot owns the new chain. -/
theorem Volume.Frame.stored (hg : vol.Geometry) (hl : vol.Layout img root own)
    (hf : vol.Frame img img₁ root own t)
    (ht : vol.BeforeEnd img root t) {entry : Nat → DirEntry} (hend : ∀ first, (entry first).isEnd = false)
    (hcluster : ∀ first < 2^32, (entry first).cluster = first)
    (hsize : ∀ first, (entry first).fileSize = content.length % 2^32)
    (hs : (vol.storeAt img₁ t content entry).1 = 0) :
    vol.Layout (vol.storeAt img₁ t content entry).2 root
      (Function.update own t (vol.newChain img₁.fat content.length)) := by
  have hf' := storeAt hl hf hg ht.mem content entry
  rcases storeAt_result hg img₁ t content entry with ⟨hfit, he⟩ | ⟨-, -, he⟩
  · rw [he] at hf' ⊢
    refine layout hl hf' ht (by simp [hend]) fun _ => ⟨?_, ?_, ?_⟩
    · rw [entry_setEntry]
      have hlt := newFirst_lt hg img₁.fat content.length
      rcases placed_chain hg (hfit.imp_left List.length_eq_zero_iff.mpr) with ⟨hz, hnil, hlen⟩ | ⟨hne, -, hc⟩
      · refine .inl ⟨?_, hnil, fun _ => ?_⟩
        · rw [hcluster _ hlt, hz]
        · rw [hsize, hlen, Nat.zero_mod]
      · refine .inr ⟨hne, ?_⟩
        rw [hcluster _ hlt]
        exact hc
    · exact fun c hc => (free_notMem hl hf (mem_newChain hc).2.2).1
    · intro u hu hlive hut c hc
      exact (free_notMem hl hf (mem_newChain hc).2.2).2 u hu hlive hut
  · rw [he] at hs
    cases hs

end GeckoOS.Fs.Fat32
