import GeckoOS.Fs.Frames

/-! Deleting an entry, and `fat32_append_file`: read, delete and create again. -/
namespace GeckoOS.Fs.Fat32
open Lib

namespace Volume
variable (vol : Volume)

/-- The chains after `fat32_delete_file`, and after the first half of `fat32_append_file`. -/
def deleteOwn (img : Image) (root : List Nat) (own : Slot → List Nat) (raw : RawName) : Slot → List Nat :=
  match vol.lookup img root raw with
  | none => own
  | some t => Function.update own t []

def appendOwn (img : Image) (root : List Nat) (own : Slot → List Nat) (name : List UInt8) : Slot → List Nat :=
  match vol.listedSlot img root name with
  | none => own
  | some _ => vol.deleteOwn img root own (encode83Name name)

end Volume

variable {vol : Volume} {d : Drive} {img : Image} {root l : List Nat} {own : Slot → List Nat} {t u : Slot}
  {raw : RawName} {name : List UInt8} {e : DirEntry}

namespace Volume.Layout
variable (hl : vol.Layout img root own)
include hl

/-- Deleting one entry. -/
theorem deleted (ht : t ∈ vol.slots root) (hlive : (img.entry t).isLive) :
    vol.Frame img ((img.release (own t)).setEntry t (img.entry t).deleted) root own t ∧
      vol.Layout ((img.release (own t)).setEntry t (img.entry t).deleted) root (Function.update own t []) := by
  have hf := (Frame.release hl ht hlive).setEntry hl ht (img.entry t).deleted
  exact ⟨hf, hf.layout hl (hl.ends.before_live ht hlive) (by simp) (by simp)⟩

theorem deleteImage (raw : RawName) :
    vol.Layout (vol.deleteImage img root own raw).2 root (vol.deleteOwn img root own raw) := by
  unfold Volume.deleteImage Volume.deleteOwn
  cases h : vol.lookup img root raw with
  | none => exact hl
  | some t =>
    obtain ⟨hmem, hlive, -⟩ := lookup_spec h
    exact (hl.deleted hmem hlive).2

theorem appendBase (name : List UInt8) :
    vol.Layout (vol.appendBase img root own name) root (vol.appendOwn img root own name) := by
  unfold Volume.appendBase Volume.appendOwn
  cases vol.listedSlot img root name with
  | none => exact hl
  | some u => exact hl.deleteImage _

end Volume.Layout

theorem listedSlot_spec (h : vol.listedSlot img root name = some u) :
    u ∈ vol.slots root ∧ (img.entry u).isLive ∧ (img.entry u).isDirectory = false := by
  have hu := List.find?_some h
  simp only [Bool.and_eq_true, Bool.not_eq_eq_eq_not, Bool.not_true] at hu
  exact ⟨List.mem_of_find?_eq_some h, hu.1⟩

/-- A file that listings show under the name, whatever the case of its letters. -/
def Volume.ListedAs (img : Image) (name : List UInt8) (t : Slot) : Bool :=
  !(img.entry t).isDirectory && sameName ((format83Name (img.entry t).rawName).takeWhile (· != 0)) name

theorem findListed_map (name : List UInt8) (ts : List Slot) :
    Volume.findListed name (ts.map fun t => (img.entry t).toFsEntry) =
      (ts.find? (Volume.ListedAs img name)).map fun t => (img.entry t).toFile := by
  induction ts with
  | nil => rfl
  | cons t ts ih =>
    unfold Volume.findListed at ih ⊢
    rw [List.map_cons, List.findSome?_cons, ih, List.find?_cons, Volume.ListedAs, DirEntry.toFsEntry]
    cases (img.entry t).isDirectory with
    | true => simp
    | false =>
      cases hs : Volume.sameName ((format83Name (img.entry t).rawName).takeWhile (· != 0)) name with
      | true => simp [hs, DirEntry.toFile]
      | false => simp [hs]

/-- What `fat32_append_file` finds in the listing. -/
theorem findListed_eq (img : Image) (root : List Nat) (name : List UInt8) :
    Volume.findListed name (vol.listing img root) =
      (vol.listedSlot img root name).map fun t => (img.entry t).toFile := by
  unfold Volume.listing Volume.listedSlot
  rw [findListed_map, List.find?_filter]
  simp only [Bool.decide_and, Bool.decide_eq_true, Bool.and_assoc]
  rfl

/-- A file in reads of 128 bytes, and at most `limit` bytes in all. -/
def Volume.readUpTo (vol : Volume) (limit : Nat) (d : Drive) (f : File) : Nat → Nat → List UInt8 → List UInt8
  | 0, _, acc => acc
  | fuel+1, j, acc =>
    if acc.length < limit then
      match vol.fileRead d f (j * 128) 128 with
      | none => acc
      | some [] => acc
      | some chunk => readUpTo vol limit d f fuel (j+1) (acc ++ chunk.take (limit - acc.length))
    else acc

private theorem readOld_eq_readUpTo (f : File) (fuel j : Nat) (acc : List UInt8) :
    vol.readOld d f fuel j acc = vol.readUpTo 4000 d f fuel j acc := by
  induction fuel generalizing j acc with
  | zero => rfl
  | succ fuel ih =>
    rw [Volume.readOld, Volume.readUpTo]
    cases vol.fileRead d f (j * 128) 128 with
    | none => rfl
    | some chunk =>
      cases chunk with
      | nil => rfl
      | cons b bs =>
        dsimp only
        rw [ih]

theorem readUpTo_eq {f : File} {content : List UInt8} (limit : Nat)
    (hread : ∀ j, vol.fileRead d f (j * 128) 128 = some ((content.drop (j * 128)).take 128))
    (fuel j : Nat) (hj : limit ≤ (j + fuel) * 128) :
    vol.readUpTo limit d f fuel j ((content.take (j * 128)).take limit) = content.take limit := by
  induction fuel generalizing j with
  | zero => rw [Volume.readUpTo, List.take_take, Nat.min_eq_left (by omega)]
  | succ fuel ih =>
    rw [Volume.readUpTo, hread, List.length_take, List.length_take]
    by_cases hfull : min limit (min (j * 128) content.length) < limit
    · rw [if_pos hfull]
      by_cases hend : content.length ≤ j * 128
      · rw [List.drop_eq_nil_of_le hend, List.take_nil, List.take_of_length_le (l := content) hend]
      · have hne : (content.drop (j * 128)).take 128 ≠ [] := by
          intro h
          have := congrArg List.length h
          simp at this
          omega
        have hnext : (content.take (j * 128)).take limit ++ ((content.drop (j * 128)).take 128).take
            (limit - min limit (min (j * 128) content.length)) = (content.take ((j + 1) * 128)).take limit := by
          rw [show (j + 1) * 128 = j * 128 + 128 by omega, List.take_add, List.take_append, List.length_take]
          congr 2
          omega
        split
        · next h => cases h
        · next h => exact absurd (Option.some.inj h) hne
        · next h =>
          rw [← Option.some.inj h, hnext]
          exact ih (j + 1) (by omega)
    · rw [if_neg hfull, List.take_take, Nat.min_eq_left (by omega)]

/-- `fat32_append_file` works as on images. -/
theorem Volume.Shows.appendFile (hg : vol.Geometry) (h : vol.Shows d img) (hl : vol.Layout img root own)
    (name content : List UInt8) :
    ∃ d', vol.appendFile d name content = some ((vol.appendImage img root own name content).1, d') ∧
      vol.Shows d' (vol.appendImage img root own name content).2 := by
  have hbase := hl.appendBase name
  unfold Volume.appendFile Volume.appendImage Volume.appendContent Volume.appendBase
  unfold Volume.appendBase Volume.appendOwn at hbase
  rw [h.getRootEntries hg hl.rootChain hl.ends, Option.bind_eq_bind, Option.bind_some, findListed_eq]
  cases hu : vol.listedSlot img root name with
  | none => exact h.createFile hg hl name (Volume.appendBuf [] content)
  | some u =>
    obtain ⟨hmem, hlive, hfile⟩ := listedSlot_spec hu
    rw [hu] at hbase
    have hold : vol.readOld d (img.entry u).toFile 4000 0 [] =
        (vol.content img (own u) (img.entry u).fileSize).take 4000 := by
      rw [readOld_eq_readUpTo]
      refine readUpTo_eq 4000 (fun j => ?_) 4000 0 (by omega)
      exact (hl.owned u hmem hlive).fileRead hg h hfile (by omega)
    obtain ⟨d1, he, hs⟩ := h.deleteFile hg hl name
    obtain ⟨d2, he2, hs2⟩ := hs.createFile hg hbase name
      (Volume.appendBuf ((vol.content img (own u) (img.entry u).fileSize).take 4000) content)
    refine ⟨d2, ?_, hs2⟩
    dsimp only [Option.map_some]
    rw [hold, he, Option.bind_eq_bind, Option.bind_some]
    exact he2

end GeckoOS.Fs.Fat32
