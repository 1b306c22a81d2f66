import GeckoOS.Fs.Image
import GeckoOS.Lib.Chain

/-! Writing and freeing whole cluster chains. -/
namespace GeckoOS.Fs.Fat32
open Lib

/-- Sector `j` of a file with the given content, padded with zeros. -/
def pad (content : List UInt8) (j : Nat) : View := fun i =>
  if i < sectorSize then content.getD (sectorSize * j + i) 0 else 0

/-- The image with the clusters `l` linked and filled with the content, in order. -/
def Volume.place (vol : Volume) (img : Image) (l : List Nat) (content : List UInt8) : Image where
  fat := relink img.fat clusterEoc l
  data c s :=
    if c ∈ l ∧ s < vol.sectorsPerCluster then pad content (l.idxOf c * vol.sectorsPerCluster + s)
    else img.data c s

/-- The image with the clusters `l` freed. -/
def Image.release (img : Image) (l : List Nat) : Image :=
  { img with fat := fun c => if c ∈ l then 0 else img.fat c }

/-- A chain that ends in an EOC entry, all of whose clusters the FAT can name. -/
structure Volume.Chain (vol : Volume) (fat : Nat → Nat) (first : Nat) (l : List Nat) : Prop where
  linked : Linked fat (clusterEoc ≤ ·) first l
  inside : ∀ c ∈ l, 2 ≤ c ∧ c < vol.fatEntries

variable {vol : Volume} {d : Drive} {img : Image} {content : List UInt8} {l rest : List Nat} {c : Nat}

/-- The buffer of `fat32_write_cluster_chain` for the sector `j` of the content. -/
private theorem fillBuf_eq (content : List UInt8) (j : Nat) :
    let remaining := content.length - sectorSize * j
    Volume.fillBuf content (content.length - remaining)
      (if sectorSize < remaining then sectorSize else remaining) = pad content j := by
  intro remaining
  funext i
  unfold Volume.fillBuf pad
  by_cases hi : i < sectorSize
  · rw [if_pos hi]
    by_cases hin : sectorSize * j + i < content.length
    · rw [if_pos (by split <;> omega), show content.length - remaining = sectorSize * j by omega]
    · rw [if_neg (by split <;> omega), List.getD_eq_default _ _ (by omega)]
  · rw [if_neg hi, if_neg (by split <;> omega)]

/-- The image with the sectors of `c` from `s` on filled with the `k`-th cluster of the content. -/
private def fillFrom (vol : Volume) (img : Image) (content : List UInt8) (c k s : Nat) : Image :=
  { img with data := fun c' s' =>
      if c' = c ∧ s ≤ s' ∧ s' < vol.sectorsPerCluster then pad content (k * vol.sectorsPerCluster + s')
      else img.data c' s' }

private theorem fillSectors_eq (hg : vol.Geometry) (content : List UInt8) (hc : 2 ≤ c ∧ c < vol.fatEntries)
    (k n s : Nat) (hn : s + n = vol.sectorsPerCluster) (h : vol.Shows d img) :
    ∃ d', Volume.fillSectors content (vol.clusterToLba c) s n
        (content.length - sectorSize * (k * vol.sectorsPerCluster + s)) d =
        (content.length - sectorSize * ((k + 1) * vol.sectorsPerCluster), d') ∧
      vol.Shows d' (fillFrom vol img content c k s) := by
  induction n generalizing s d img with
  | zero =>
    have hend : k * vol.sectorsPerCluster + s = (k + 1) * vol.sectorsPerCluster := by rw [Nat.add_mul]; omega
    refine ⟨d, by rw [Volume.fillSectors, hend], ?_⟩
    have hsame : fillFrom vol img content c k s = img := by
      ext c'
      · rfl
      · rename_i s' i
        have : ¬ (c' = c ∧ s ≤ s' ∧ s' < vol.sectorsPerCluster) := by omega
        simp [fillFrom, this]
    rwa [hsame]
  | succ n ih =>
    rw [Volume.fillSectors]
    have hput := h.put_data hg (s := s) ⟨hc.1, hc.2, by omega⟩ (pad content (k * vol.sectorsPerCluster + s))
    obtain ⟨d', he, hs⟩ := ih (s + 1) (by omega) hput
    refine ⟨d', ?_, ?_⟩
    · have hbuf := fillBuf_eq content (k * vol.sectorsPerCluster + s)
      have hnext : sectorSize * (k * vol.sectorsPerCluster + (s + 1)) =
          sectorSize * (k * vol.sectorsPerCluster + s) + sectorSize := by
        rw [← Nat.add_assoc, Nat.mul_add _ _ 1, Nat.mul_one]
      rw [hnext] at he
      generalize sectorSize * (k * vol.sectorsPerCluster + s) = done at hbuf he ⊢
      have hrem : content.length - done -
          (if sectorSize < content.length - done then sectorSize else content.length - done) =
          content.length - (done + sectorSize) := by split <;> omega
      dsimp only at hbuf ⊢
      rw [hbuf, hrem]
      exact he
    · have hsame : fillFrom vol (img.setData c s (pad content (k * vol.sectorsPerCluster + s))) content
        c k (s + 1) =
          fillFrom vol img content c k s := by
        ext c' s' i
        · rfl
        · dsimp only [fillFrom, Image.setData]
          by_cases hcs : c' = c ∧ s' = s
          · obtain ⟨rfl, rfl⟩ := hcs
            rw [if_neg (by omega), if_pos ⟨rfl, rfl⟩, if_pos (by omega)]
          · rw [if_neg hcs]
            by_cases hin : c' = c ∧ s + 1 ≤ s' ∧ s' < vol.sectorsPerCluster
            · rw [if_pos hin, if_pos ⟨hin.1, by omega, hin.2.2⟩]
            · rw [if_neg hin, if_neg (by omega)]
      rwa [hsame] at hs

theorem place_nil (img : Image) (content : List UInt8) : vol.place img [] content = img := by
  rw [Volume.place, relink_nil]
  simp

private theorem place_snoc (img : Image) (content : List UInt8) (hc : c ∉ l) :
    vol.place img (l ++ [c]) content =
      fillFrom vol ⟨relink img.fat clusterEoc (l ++ [c]), (vol.place img l content).data⟩ content c
        l.length 0 := by
  ext c' s i
  · rfl
  · dsimp only [Volume.place, fillFrom]
    by_cases hcc : c' = c
    · subst hcc
      by_cases hs : s < vol.sectorsPerCluster
      · simp [hs, List.idxOf_append_of_notMem hc]
      · simp [hs]
    · by_cases hl : c' ∈ l
      · simp [hcc, hl, List.idxOf_append_of_mem hl]
      · simp [hcc, hl]

/-- A chain put on the first free clusters leaves the others free. -/
theorem freeClusters_relink {fat : Nat → Nat} (hF : vol.freeClusters fat = l ++ rest) :
    vol.freeClusters (relink fat clusterEoc l) = rest := by
  have hnd : (l ++ rest).Nodup := hF ▸ freeClusters_nodup fat
  have hpred : ∀ c, (2 ≤ c && relink fat clusterEoc l c == 0) = (decide (c ∉ l) && (2 ≤ c && fat c == 0)) := by
    intro c
    by_cases hc : c ∈ l
    · have hne : relink fat clusterEoc l c ≠ 0 := by
        have hmem : relink fat clusterEoc l c ∈ l ∨ _ := relink_mem hc
        rcases hmem with h | h
        · have hin : relink fat clusterEoc l c ∈ vol.freeClusters fat := hF ▸ List.mem_append_left _ h
          have := (mem_freeClusters.mp hin).1
          omega
        · rw [h]
          decide
      simp [hc, hne]
    · simp [hc, relink_of_notMem hc]
  unfold Volume.freeClusters at hF ⊢
  simp only [hpred]
  rw [← List.filter_filter, hF, List.filter_append]
  have hl : l.filter (fun c => decide (c ∉ l)) = [] := by simp
  have hrest : rest.filter (fun c => decide (c ∉ l)) = rest := by
    rw [List.filter_eq_self]
    intro c hc
    simpa using fun h => (List.nodup_append.mp hnd).2.2 c h c hc rfl
  rw [hl, hrest, List.nil_append]

/-- The loop of `fat32_write_cluster_chain`, with `l` placed so far. -/
theorem chainLoop_eq (hg : vol.Geometry) (content : List UInt8) (n : Nat)
    (hF : vol.freeClusters img.fat = l ++ rest) (h : vol.Shows d (vol.place img l content)) :
    ∃ d', vol.chainLoop content n (l.headD 0) (l.getLastD 0)
        (content.length - sectorSize * (l.length * vol.sectorsPerCluster)) d =
        (if n ≤ rest.length then (l ++ rest.take n).headD 0 else 0, d') ∧
      vol.Shows d' (vol.place img (l ++ rest.take n) content) := by
  induction n generalizing l rest d with
  | zero => exact ⟨d, by simp [Volume.chainLoop], by simpa using h⟩
  | succ n ih =>
    have hnd : (l ++ rest).Nodup := hF ▸ freeClusters_nodup img.fat
    rw [Volume.chainLoop]
    rcases h.allocCluster_cases hg with ⟨hnone, he⟩ | ⟨c, more, d1, hfree, he, hs1⟩
    · obtain rfl : rest = [] := (freeClusters_relink hF).symm.trans hnone
      rw [he]
      exact ⟨d, by simp, by simpa using h⟩
    · obtain rfl : rest = c :: more := (freeClusters_relink hF).symm.trans hfree
      have hc := mem_freeClusters.mp (hF ▸ List.mem_append_right l (List.mem_cons_self (a := c)))
      have hcl : c ∉ l := fun hin => (List.nodup_append.mp hnd).2.2 c hin c (by simp) rfl
      have hc28 : c % 2^28 = c := by
        have := hg.entries
        unfold clusterBad at this
        omega
      rw [he]
      dsimp only
      rw [if_neg (by omega)]
      -- the image once the new cluster is linked in, before it is filled
      have hlink : vol.Shows (if l.getLastD 0 ≠ 0 then (vol.writeFat d1 (l.getLastD 0) c).2 else d1)
          ⟨relink img.fat clusterEoc (l ++ [c]), (vol.place img l content).data⟩ := by
        rcases List.eq_nil_or_concat' l with rfl | ⟨l', p, rfl⟩
        · rw [place_nil] at hs1 ⊢
          rw [List.nil_append, relink_singleton]
          exact hs1
        · have hp := mem_freeClusters.mp (hF ▸ List.mem_append_left (c :: more) (by simp : p ∈ l' ++ [p]))
          have hw := hs1.writeFat hg hp.2.1 c
          rw [List.getLastD_concat, if_pos (by omega)]
          rw [relink_snoc (List.nodup_append.mp hnd).1 (by simp) hcl, List.getLast_append_singleton]
          rw [hc28] at hw
          exact hw
      obtain ⟨d2, he2, hs2⟩ := fillSectors_eq hg content ⟨hc.1, hc.2.1⟩ l.length vol.sectorsPerCluster 0
        (by omega) hlink
      rw [← place_snoc img content hcl] at hs2
      obtain ⟨d3, he3, hs3⟩ := ih (by simpa using hF : _ = (l ++ [c]) ++ more) hs2
      refine ⟨d3, ?_, by simpa using hs3⟩
      have hhead : (if l.headD 0 = 0 then c else l.headD 0) = (l ++ [c]).headD 0 := by
        cases l with
        | nil => rfl
        | cons x l =>
          have hx := mem_freeClusters.mp (hF ▸ List.mem_append_left (c :: more) (List.mem_cons_self (a := x)))
          exact if_neg (by dsimp only [List.headD_cons]; omega)
      rw [Nat.add_zero] at he2
      rw [he2, hhead]
      dsimp only
      rw [List.length_append, List.length_singleton, List.getLastD_concat] at he3
      simpa using he3

theorem clustersNeeded_pos (hg : vol.Geometry) (len : Nat) : 0 < vol.clustersNeeded len := by
  have hcs : 0 < vol.clusterSize := by
    rw [Volume.clusterSize, hg.bytes]
    exact Nat.mul_pos (by decide) hg.cluster
  unfold Volume.clustersNeeded
  split
  · exact Nat.one_pos
  · exact Nat.div_pos (by omega) hcs

/-- `fat32_write_cluster_chain` takes the first free clusters, as many as the
content needs or all there are; it fails only in that it returns 0. -/
theorem Volume.Shows.writeClusterChain (hg : vol.Geometry) (h : vol.Shows d img) (content : List UInt8) :
    let n := vol.clustersNeeded content.length
    let free := vol.freeClusters img.fat
    ∃ d', vol.writeClusterChain d content = (if n ≤ free.length then free.headD 0 else 0, d') ∧
      vol.Shows d' (vol.place img (free.take n) content) := by
  intro n free
  have hF : vol.freeClusters img.fat = [] ++ free := rfl
  obtain ⟨d', he, hs⟩ := chainLoop_eq hg content n hF (by rwa [place_nil])
  refine ⟨d', ?_, hs⟩
  have hhead : (free.take n).headD 0 = free.headD 0 := by
    obtain ⟨m, hm⟩ := Nat.exists_eq_add_of_lt (clustersNeeded_pos hg content.length)
    have hn : n = m + 1 := by omega
    rw [hn]
    cases free <;> rfl
  rw [List.nil_append, hhead] at he
  rw [← he]
  simp [Volume.writeClusterChain, n]

namespace Volume.Chain
variable {fat fat' : Nat → Nat} {first : Nat} (h : vol.Chain fat first l)
include h

theorem nodup : l.Nodup := h.linked.nodup

theorem length_le : l.length ≤ vol.fatEntries := by
  have hsub : l ⊆ List.range vol.fatEntries := fun c hc => List.mem_range.mpr (h.inside c hc).2
  simpa using (h.nodup.subperm hsub).length_le

/-- No cluster of a chain is free. -/
theorem fat_ne_zero (hc : c ∈ l) : fat c ≠ 0 := by
  rcases h.linked.next_mem hc with hn | hn
  · have := (h.inside _ hn).1
    omega
  · unfold clusterEoc at hn
    omega

theorem congr (hf : ∀ c ∈ l, fat' c = fat c) : vol.Chain fat' first l := ⟨h.linked.congr hf, h.inside⟩

theorem tail {x : Nat} {xs : List Nat} (hl : l = x :: xs) : first = x ∧ vol.Chain fat (fat x) xs := by
  subst hl
  exact ⟨h.linked.1, h.linked.2.2, fun c hc => h.inside c (List.mem_cons_of_mem _ hc)⟩

end Volume.Chain

/-- Relinked clusters are a chain, and so is the chain from any of them on. -/
theorem chain_relink (hg : vol.Geometry) {fat : Nat → Nat} (hl : l.Nodup)
    (hin : ∀ c ∈ l, 2 ≤ c ∧ c < vol.fatEntries)
    {k : Nat} (hk : k < l.length) : vol.Chain (relink fat clusterEoc l) l[k] (l.drop k) := by
  have hent := hg.entries
  have hstop : ∀ y ∈ l, ¬ clusterEoc ≤ y := by
    intro y hy
    have := (hin y hy).2
    unfold clusterEoc
    unfold clusterBad at hent
    omega
  refine ⟨?_, fun c hc => hin c (List.mem_of_mem_drop hc)⟩
  have hlink : Linked (relink fat clusterEoc l) (clusterEoc ≤ ·) (l.getD k clusterEoc) (l.drop k) :=
    linked_relink hl hstop le_rfl k hk.le
  rwa [List.getD_eq_getElem _ _ hk] at hlink

/-- A start outside the data ends the loop at once. -/
theorem freeClusterChain_none {fuel : Nat} (hc : ¬ (2 ≤ c ∧ c < clusterBad)) :
    vol.freeClusterChain d (fuel + 1) c = some d := by
  rw [Volume.freeClusterChain, if_neg hc]

theorem release_nil (img : Image) : img.release [] = img := by
  simp [Image.release]

private theorem freeClusterChain_eq (hg : vol.Geometry) {first fuel : Nat} (hf : l.length < fuel)
    (hl : vol.Chain img.fat first l) (h : vol.Shows d img) :
    ∃ d', vol.freeClusterChain d fuel first = some d' ∧ vol.Shows d' (img.release l) := by
  have hent := hg.entries
  induction l generalizing d img first fuel with
  | nil =>
    obtain ⟨fuel, rfl⟩ := Nat.exists_eq_add_of_lt hf
    have hstop : clusterEoc ≤ first := hl.linked
    refine ⟨d, freeClusterChain_none ?_, by rwa [release_nil]⟩
    unfold clusterEoc at hstop
    unfold clusterBad
    omega
  | cons x xs ih =>
    obtain ⟨fuel, rfl⟩ : ∃ m, fuel = m + 1 := ⟨fuel - 1, by omega⟩
    obtain ⟨rfl, htail⟩ := hl.tail rfl
    have hin := hl.inside first (by simp)
    have hnot : first ∉ xs := (List.nodup_cons.mp hl.nodup).1
    have hset := h.writeFat hg hin.2 0
    have htail' : vol.Chain (img.setFat first (0 % 2^28)).fat (img.fat first) xs := by
      refine htail.congr (fun c hc => ?_)
      have hne : c ≠ first := fun he => hnot (he ▸ hc)
      exact Function.update_of_ne hne _ _
    have hf' : xs.length < fuel := by simpa using hf
    obtain ⟨d', he, hs⟩ := ih hf' htail' hset
    refine ⟨d', ?_, ?_⟩
    · rw [Volume.freeClusterChain, if_pos ⟨hin.1, by omega⟩, h.nextCluster_eq hg hin.2]
      exact he
    · have hsame : (img.setFat first (0 % 2^28)).release xs = img.release (first :: xs) := by
        ext c
        · by_cases hc : c = first
          · subst hc
            simp [Image.release, Image.setFat, hnot]
          · simp [Image.release, Image.setFat, hc]
        · rfl
      rwa [hsame] at hs

/-- `fat32_free_cluster_chain` on a proper chain returns and frees exactly its clusters. -/
theorem Volume.Shows.freeClusterChain (hg : vol.Geometry) (h : vol.Shows d img) {first : Nat}
    (hl : vol.Chain img.fat first l) :
    ∃ d', vol.freeClusterChain d chainFuel first = some d' ∧ vol.Shows d' (img.release l) := by
  have hent := hg.entries
  have hle := hl.length_le
  refine freeClusterChain_eq hg ?_ hl h
  unfold clusterBad at hent
  unfold chainFuel
  omega

end GeckoOS.Fs.Fat32
