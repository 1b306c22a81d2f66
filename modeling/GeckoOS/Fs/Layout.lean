import GeckoOS.Fs.Directory
import GeckoOS.Fs.Reading

/-! Well-formed volumes: the root directory, the chains that its live entries
own, and when a change keeps them in order. -/
namespace GeckoOS.Fs.Fat32
open Lib

section entries
variable {e : DirEntry} {first size : Nat}

/-- The last twelve bytes hold this cluster and size. -/
private def HasTail (e : DirEntry) (first size : Nat) : Prop :=
  ∀ k : Fin 32, 20 ≤ k.val → e k = (entryTail first size).getD (k - 20) 0

private theorem HasTail.cluster (h : HasTail e first size) (hc : first < 2^32) : e.cluster = first := by
  unfold DirEntry.cluster DirEntry.word
  rw [h 20 (by decide), h 21 (by decide), h 26 (by decide), h 27 (by decide)]
  change 2^16 * ((UInt8.ofNat (first / 2^16)).toNat + 2^8 * (UInt8.ofNat (first / 2^16 / 2^8)).toNat) +
    ((UInt8.ofNat (first % 2^16)).toNat + 2^8 * (UInt8.ofNat (first % 2^16 / 2^8)).toNat) = first
  simp only [UInt8.toNat_ofNat']
  omega

private theorem HasTail.fileSize (h : HasTail e first size) (hs : size < 2^32) : e.fileSize = size := by
  unfold DirEntry.fileSize DirEntry.word
  rw [h 28 (by decide), h 29 (by decide), h 30 (by decide), h 31 (by decide)]
  change (UInt8.ofNat size).toNat + 2^8 * (UInt8.ofNat (size / 2^8)).toNat +
    2^16 * ((UInt8.ofNat (size / 2^16)).toNat + 2^8 * (UInt8.ofNat (size / 2^16 / 2^8)).toNat) = size
  simp only [UInt8.toNat_ofNat']
  omega

private theorem newEntry_tail (raw : RawName) (a : UInt8) (date : Nat) :
    HasTail (newEntry raw a date first size) first size := by
  intro k hk
  unfold newEntry
  rw [List.getD_append_right _ _ _ _ (by simpa using hk)]
  simp

private theorem rewrite_tail : HasTail (e.rewrite first size) first size := by
  intro k hk
  rw [DirEntry.rewrite, if_neg (by omega)]

theorem newEntry_cluster (raw : RawName) (a : UInt8) (date : Nat) (hc : first < 2^32) :
    (newEntry raw a date first size).cluster = first := (newEntry_tail raw a date).cluster hc
theorem newEntry_fileSize (raw : RawName) (a : UInt8) (date : Nat) (hs : size < 2^32) :
    (newEntry raw a date first size).fileSize = size := (newEntry_tail raw a date).fileSize hs
theorem rewrite_cluster (hc : first < 2^32) : (e.rewrite first size).cluster = first := rewrite_tail.cluster hc
theorem rewrite_fileSize (hs : size < 2^32) : (e.rewrite first size).fileSize = size := rewrite_tail.fileSize hs

@[simp] theorem newEntry_rawName (raw : RawName) (a : UInt8) (date first size : Nat) :
    (newEntry raw a date first size).rawName = raw := by
  funext k
  have hk := k.isLt
  simp only [DirEntry.rawName, newEntry, List.append_assoc, Fin.val_castLE]
  rw [List.getD_append _ _ _ _ (by simp), List.getD_eq_getElem _ _ (by simp)]
  exact List.getElem_ofFn _

@[simp] theorem newEntry_attributes (raw : RawName) (a : UInt8) (date first size : Nat) :
    (newEntry raw a date first size).attributes = a := by
  simp only [DirEntry.attributes, newEntry, List.append_assoc]
  rw [List.getD_append_right _ _ _ _ (by simp)]
  simp

@[simp] theorem rewrite_rawName : (e.rewrite first size).rawName = e.rawName := by
  funext k
  have hk := k.isLt
  exact if_pos (by simp; omega)

@[simp] theorem rewrite_attributes : (e.rewrite first size).attributes = e.attributes := rfl
@[simp] theorem rewrite_first : (e.rewrite first size).first = e.first := rfl

@[simp] theorem rewrite_isLive : (e.rewrite first size).isLive = e.isLive := by
  simp [DirEntry.isLive, DirEntry.isEnd, DirEntry.isFree, DirEntry.isPlain]
@[simp] theorem rewrite_isEnd : (e.rewrite first size).isEnd = e.isEnd := by simp [DirEntry.isEnd]
@[simp] theorem rewrite_isDirectory : (e.rewrite first size).isDirectory = e.isDirectory := by
  simp [DirEntry.isDirectory]

@[simp] theorem deleted_isLive : e.deleted.isLive = false := by
  simp [DirEntry.isLive, DirEntry.isFree, DirEntry.first, DirEntry.deleted]
@[simp] theorem deleted_isEnd : e.deleted.isEnd = false := by
  simp only [DirEntry.isEnd, DirEntry.first, DirEntry.deleted, Function.update_self]
  decide

section newEntry
variable {raw : RawName} {a : UInt8} {date : Nat}

theorem newEntry_first : (newEntry raw a date first size).first = raw 0 :=
  congrFun (newEntry_rawName raw a date first size) 0

theorem newEntry_isEnd (h : raw 0 ≠ entryEnd) : (newEntry raw a date first size).isEnd = false := by
  simpa [DirEntry.isEnd, newEntry_first] using h

theorem newEntry_isLive (he : raw 0 ≠ entryEnd) (hf : raw 0 ≠ entryFree)
    (ha : a = attrArchive ∨ a = attrDirectory) :
    (newEntry raw a date first size).isLive := by
  have hplain : (newEntry raw a date first size).isPlain := by
    rw [DirEntry.isPlain, newEntry_attributes]
    rcases ha with rfl | rfl <;> decide
  rw [DirEntry.isLive, newEntry_isEnd he, hplain, DirEntry.isFree, newEntry_first]
  simpa using hf

end newEntry

theorem fileSize_lt (e : DirEntry) : e.fileSize < 2^32 := by
  have h0 := (e 28).toNat_lt
  have h1 := (e 29).toNat_lt
  have h2 := (e 30).toNat_lt
  have h3 := (e 31).toNat_lt
  unfold DirEntry.fileSize DirEntry.word
  omega

end entries

/-- An entry without clusters, which for a file means without content, or with a
chain of its own. -/
def Volume.Owns (vol : Volume) (fat : Nat → Nat) (e : DirEntry) (l : List Nat) : Prop :=
  (e.cluster = 0 ∧ l = [] ∧ (e.isDirectory = false → e.fileSize = 0)) ∨ (l ≠ [] ∧ vol.Chain fat e.cluster l)

/-- The root directory is a chain and has nothing behind its first END entry,
and the chains of its live entries are disjoint from each other and from it. -/
structure Volume.Layout (vol : Volume) (img : Image) (root : List Nat) (own : Slot → List Nat) : Prop where
  rootChain : vol.Chain img.fat vol.rootCluster root
  ends : vol.EndsOnce img root
  owned : ∀ t ∈ vol.slots root, (img.entry t).isLive → vol.Owns img.fat (img.entry t) (own t)
  apartRoot : ∀ t ∈ vol.slots root, (img.entry t).isLive → (own t).Disjoint root
  apart : ∀ t ∈ vol.slots root, ∀ u ∈ vol.slots root, (img.entry t).isLive → (img.entry u).isLive → t ≠ u →
    (own t).Disjoint (own u)

/-- A slot with no END entry before it. -/
def Volume.BeforeEnd (vol : Volume) (img : Image) (root : List Nat) (t : Slot) : Prop :=
  ∃ as bs, vol.slots root = as ++ t :: bs ∧ ∀ u ∈ as, (img.entry u).isEnd = false

variable {vol : Volume} {d : Drive} {img img' : Image} {root l : List Nat} {own : Slot → List Nat}
  {t u : Slot} {c : Nat}

theorem Volume.BeforeEnd.mem (h : vol.BeforeEnd img root t) : t ∈ vol.slots root := by
  obtain ⟨as, bs, hs, -⟩ := h
  simp [hs]

namespace Volume.Owns
variable {fat fat' : Nat → Nat} {e : DirEntry} (h : vol.Owns fat e l)
include h

theorem congr (hf : ∀ c ∈ l, fat' c = fat c) : vol.Owns fat' e l := by
  rcases h with h | ⟨hne, hc⟩
  · exact .inl h
  · exact .inr ⟨hne, hc.congr hf⟩

theorem fat_ne_zero (hc : c ∈ l) : fat c ≠ 0 := by
  rcases h with ⟨-, rfl, -⟩ | ⟨-, hl⟩
  · cases hc
  · exact hl.fat_ne_zero hc

theorem nodup : l.Nodup := by
  rcases h with ⟨-, rfl, -⟩ | ⟨-, hl⟩
  · exact .nil
  · exact hl.nodup

theorem inside (hc : c ∈ l) : 2 ≤ c ∧ c < vol.fatEntries := by
  rcases h with ⟨-, rfl, -⟩ | ⟨-, hl⟩
  · cases hc
  · exact hl.inside c hc

end Volume.Owns

namespace Volume.EndsOnce
variable (h : vol.EndsOnce img root)
include h

/-- An entry that is not END put where no END entry comes before. -/
theorem replace (hroot : root.Nodup) (ht : vol.BeforeEnd img root t)
    (hentry : ∀ u ∈ vol.slots root, u ≠ t → img'.entry u = img.entry u)
    (hnew : (img'.entry t).isEnd = false) : vol.EndsOnce img' root := by
  obtain ⟨as, bs, hs, has⟩ := ht
  have hnd : (as ++ t :: bs).Nodup := hs ▸ slots_nodup hroot
  obtain ⟨-, hndt, hcross⟩ := List.nodup_append.mp hnd
  have hasEnd : ∀ u ∈ as, (img'.entry u).isEnd = false := by
    intro u hu
    rw [hentry u (by simp [hs, hu]) (hcross u hu t (by simp))]
    exact has u hu
  have hbs : ∀ u ∈ bs, img'.entry u = img.entry u := by
    intro u hu
    have hne : u ≠ t := fun he => (List.nodup_cons.mp hndt).1 (he ▸ hu)
    exact hentry u (by simp [hs, hu]) hne
  have hold : (as ++ t :: bs).Pairwise fun t u => (img.entry t).isEnd → (img.entry u).isEnd := hs ▸ h
  have hold' := (List.pairwise_cons.mp (List.pairwise_append.mp hold).2.1).2
  unfold Volume.EndsOnce
  rw [hs, List.pairwise_append, List.pairwise_cons]
  refine ⟨?_, ⟨?_, ?_⟩, ?_⟩
  · refine List.Pairwise.imp_of_mem (fun {u v} hu _ _ he => ?_) (List.nodup_append.mp hnd).1
    rw [hasEnd u hu] at he
    cases he
  · intro u _ he
    rw [hnew] at he
    cases he
  · refine hold'.imp_of_mem (fun {u v} hu hv huv => ?_)
    rw [hbs u hu, hbs v hv]
    exact huv
  · intro u hu v _ he
    rw [hasEnd u hu] at he
    cases he

/-- No END entry comes before a live one. -/
theorem before_live (ht : t ∈ vol.slots root) (hlive : (img.entry t).isLive) : vol.BeforeEnd img root t := by
  obtain ⟨as, bs, hs⟩ := List.append_of_mem ht
  refine ⟨as, bs, hs, fun u hu => ?_⟩
  have hends : (as ++ t :: bs).Pairwise fun t u => (img.entry t).isEnd → (img.entry u).isEnd := hs ▸ h
  by_contra hne
  have hend := (List.pairwise_append.mp hends).2.2 u hu t (by simp) (by simpa using hne)
  rw [isEnd_of_isLive hlive] at hend
  cases hend

end Volume.EndsOnce

namespace Volume.Layout
variable (hl : vol.Layout img root own)
include hl

theorem inData (ht : t ∈ vol.slots root) : vol.InData t.cluster t.sector := by
  obtain ⟨hc, hs, -⟩ := mem_slots.mp ht
  obtain ⟨h2, hn⟩ := hl.rootChain.inside _ hc
  exact ⟨h2, hn, hs⟩

/-- A free cluster belongs to nothing. -/
theorem free_notMem (hc : img.fat c = 0) :
    c ∉ root ∧ ∀ t ∈ vol.slots root, (img.entry t).isLive → c ∉ own t :=
  ⟨fun h => hl.rootChain.fat_ne_zero h hc, fun t ht hlive h => (hl.owned t ht hlive).fat_ne_zero h hc⟩

/-- A change that leaves the root and all entries but one alone, and gives that
one a chain apart from the others, or removes it. -/
theorem replace (hfatRoot : ∀ c ∈ root, img'.fat c = img.fat c)
    (hfat : ∀ u ∈ vol.slots root, u ≠ t → (img.entry u).isLive → ∀ c ∈ own u, img'.fat c = img.fat c)
    (hentry : ∀ u ∈ vol.slots root, u ≠ t → img'.entry u = img.entry u)
    (hends : vol.EndsOnce img' root)
    (hnew : (img'.entry t).isLive → vol.Owns img'.fat (img'.entry t) l ∧ l.Disjoint root ∧
      ∀ u ∈ vol.slots root, (img.entry u).isLive → u ≠ t → l.Disjoint (own u)) :
    vol.Layout img' root (Function.update own t l) where
  rootChain := hl.rootChain.congr hfatRoot
  ends := hends
  owned := by
    intro u hu hlive
    by_cases hut : u = t
    · subst hut
      rw [Function.update_self]
      exact (hnew hlive).1
    · rw [Function.update_of_ne hut]
      rw [hentry u hu hut] at hlive ⊢
      exact (hl.owned u hu hlive).congr (hfat u hu hut hlive)
  apartRoot := by
    intro u hu hlive
    by_cases hut : u = t
    · subst hut
      rw [Function.update_self]
      exact (hnew hlive).2.1
    · rw [Function.update_of_ne hut]
      exact hl.apartRoot u hu (hentry u hu hut ▸ hlive)
  apart := by
    intro u hu v hv hlu hlv huv
    by_cases hut : u = t
    · subst hut
      have hvt : v ≠ u := huv.symm
      rw [Function.update_self, Function.update_of_ne hvt]
      exact (hnew hlu).2.2 v hv (hentry v hv hvt ▸ hlv) hvt
    · rw [Function.update_of_ne hut]
      have hlu' : (img.entry u).isLive := hentry u hu hut ▸ hlu
      by_cases hvt : v = t
      · subst hvt
        rw [Function.update_self]
        exact ((hnew hlv).2.2 u hu hlu' hut).symm
      · rw [Function.update_of_ne hvt]
        exact hl.apart u hu v hv hlu' (hentry v hv hvt ▸ hlv) huv

end Volume.Layout

/-- The file that a live entry stands for in a listing. -/
def DirEntry.toFile (e : DirEntry) : File := ⟨format83Name e.rawName, e.fileSize, e.cluster⟩

/-- Reading a file of the volume: slices of its content. -/
theorem Volume.Owns.fileRead (hg : vol.Geometry) (h : vol.Shows d img) {e : DirEntry}
    (ho : vol.Owns img.fat e l)
    (hfile : e.isDirectory = false) {offset len : Nat} (hlen : min len (e.fileSize - offset) < 2^31) :
    vol.fileRead d e.toFile offset len = some (((vol.content img l e.fileSize).drop offset).take len) := by
  rcases ho with ⟨-, rfl, hz⟩ | ⟨hne, hc⟩
  · rw [fileRead_empty d (hz hfile), Volume.content]
    simp
  · exact h.fileRead hg (f := e.toFile) hne hc (fileSize_lt e) hlen

/-- The content depends on the clusters of the chain only. -/
theorem content_congr {size : Nat} (h : ∀ c ∈ l, img'.data c = img.data c) :
    vol.content img' l size = vol.content img l size := by
  unfold Volume.content
  apply View.bytes_congr
  intro i hi
  have hpos : 0 < vol.clusterSize := by
    rcases Nat.eq_zero_or_pos vol.clusterSize with hz | hz
    · rw [hz] at hi
      omega
    · exact hz
  have hlt : (0 + i) / vol.clusterSize < l.length := Nat.div_lt_of_lt_mul (by rw [Nat.mul_comm]; omega)
  unfold Volume.fileView Image.clusterView
  rw [List.getD_eq_getElem _ _ hlt, h _ (List.getElem_mem hlt)]

end GeckoOS.Fs.Fat32
