import GeckoOS.Fs.Files

/-! The commands cp and mv of the shell: they take a file through a buffer of 4096
bytes into a new one. -/
namespace GeckoOS.Fs.Fat32
open Lib

/-- A line on the terminal, in red if it reports a failure. -/
structure Report where
  red : Bool
  text : String

/-- A name as it is printed. -/
def printed (name : List UInt8) : String := .ofList (name.map fun b => .ofNat b.toNat)

namespace Volume
variable (vol : Volume)

/-- What both commands do first: find the source in the listing and read it into
the buffer; `some none` if it is not there. -/
def sourceBuf (d : Drive) (src : List UInt8) : Option (Option (List UInt8)) :=
  (vol.getRootEntries d).map fun entries => (findListed src entries).map fun f =>
    vol.readUpTo 4096 d f 4096 0 []

def cmdCp (d : Drive) (src dst : List UInt8) : Option (Report × Drive) := do
  match ← vol.sourceBuf d src with
  | none => return (⟨true, "Source not found.\n"⟩, d)
  | some copybuf =>
    let (result, d) ← vol.createFile d dst copybuf
    if result = 0 then return (⟨false, "Copied to: " ++ printed dst ++ "\n"⟩, d)
    else return (⟨true, "Copy failed.\n"⟩, d)

/-- The result of the delete is not looked at. -/
def cmdMv (d : Drive) (src dst : List UInt8) : Option (Report × Drive) := do
  match ← vol.sourceBuf d src with
  | none => return (⟨true, "Source not found.\n"⟩, d)
  | some mvbuf =>
    let (rc, d) ← vol.createFile d dst mvbuf
    if rc ≠ 0 then return (⟨true, "Move failed (could not create dst).\n"⟩, d)
    else
      let (_, d) ← vol.deleteFile d src
      return (⟨false, "Moved: " ++ printed src ++ " -> " ++ printed dst ++ "\n"⟩, d)

end Volume

variable {vol : Volume} {d d' : Drive} {img img' : Image} {root : List Nat} {own : Slot → List Nat} {t u : Slot}
  {src dst base ext base' ext' content : List UInt8}

/-- Of a file in the listing, the first 4096 bytes. -/
private theorem sourceBuf_eq (hg : vol.Geometry) (h : vol.Shows d img) (hl : vol.Layout img root own)
    (hsrc : Is83 src base ext) (ht : vol.FileAt d root src t content) :
    vol.sourceBuf d src = some (some (content.take 4096)) := by
  unfold Volume.sourceBuf
  rw [h.getRootEntries hg hl.rootChain hl.ends, Option.map_some, findListed_eq, (ht.found h hsrc).1,
    Option.map_some, Option.map_some, ← h.image]
  congr 2
  exact readUpTo_eq 4096 (fun j => ht.reads (j * 128) 128 (by decide)) 4096 0 (by decide)

/-- Creating a file under another name keeps the file. -/
private theorem Volume.FileAt.created (hg : vol.Geometry) (h : vol.Shows d img) (hl : vol.Layout img root own)
    (hdst : Is83 dst base' ext') (hne : src.map upper ≠ dst.map upper) (ht : vol.FileAt d root src t content)
    {buf : List UInt8} (hlen : buf.length < 2^32)
    (h' : vol.Shows d' (vol.createImage img root (encode83Name dst) buf).2) :
    vol.FileAt d' root src t content := by
  obtain ⟨he, hf⟩ := encode83Name_first hdst.ascii
  have hlive := ht.live
  rw [h.image] at hlive
  rcases create_cases hg hl he hf hlen with
    ⟨-, hfail⟩ | ⟨s, hs, hframe, ⟨-, -, own', -, hh⟩ | ⟨-, -, -, hsame⟩⟩
  · rw [hfail] at h'
    exact ht.shows hg h h' hl
  all_goals
    have hdead := freeSlot_not_live hs
    have hts : t ≠ s := fun he => by rw [he, hdead] at hlive; cases hlive
    refine ht.frame hg h h' hl hframe hts fun hls => ?_
  · rw [hdst.shown hh.name]
    exact hne.symm
  · rw [hsame, hdead] at hls
    cases hls

/-- The file is longer than the buffer, and there is room for what the buffer takes. -/
private def Truncates (vol : Volume) (img : Image) (root : List Nat) (content : List UInt8) : Prop :=
  4096 < content.length ∧ vol.freeSlot img root ≠ none ∧ vol.Fits img.fat 4096

section commands
variable (hg : vol.Geometry) (h : vol.Shows d img) (hl : vol.Layout img root own) (hsrc : Is83 src base ext)
  (hdst : Is83 dst base' ext') (ht : vol.FileAt d root src t content) (hfree : vol.Unnamed img root dst)
include hg h hl hsrc hdst ht hfree

omit hg hl hdst in
private theorem names_differ : src.map upper ≠ dst.map upper := by
  intro he
  have hlive := ht.live
  have hraw := ht.raw
  rw [h.image] at hlive hraw
  exact hfree t ht.mem hlive ((hsrc.shown hraw).trans he)

/-- Up to the new file, which has the whole content unless it was truncated. -/
private theorem copied :
    ∃ r d₁ img₁, vol.createFile d dst (content.take 4096) = some (r, d₁) ∧ vol.Shows d₁ img₁ ∧
      vol.FileAt d₁ root src t content ∧
      ((r = 0 ∧ vol.HasFile d₁ root dst (content.take 4096) ∧
          (content.take 4096 = content ↔ ¬ Truncates vol img root content) ∧
          ∃ own₁, vol.Layout img₁ root own₁) ∨
        (r ≠ 0 ∧ ¬ Truncates vol img root content)) := by
  have hne := names_differ h hsrc ht hfree
  have hlen : (content.take 4096).length = min 4096 content.length := List.length_take
  obtain ⟨d₁, he, h₁⟩ := h.createFile hg hl dst (content.take 4096)
  refine ⟨_, d₁, _, he, h₁, ht.created hg h hl hdst hne (by omega) h₁, ?_⟩
  unfold Truncates
  rcases hfree.created hg hl hdst (by omega) h₁ with ⟨⟨hslot, hfit⟩, hzero, hfile, hlayout⟩ | ⟨hfit, hfail, -⟩
  · refine .inl ⟨hzero, hfile, ?_, hlayout⟩
    by_cases hle : content.length ≤ 4096
    · exact iff_of_true (List.take_of_length_le hle) (by omega)
    · rw [hlen, Nat.min_eq_left (by omega)] at hfit
      have hnil : content.take 4096 ≠ [] := by
        intro hz
        rw [hz, List.length_nil] at hlen
        omega
      refine iff_of_false (fun hall => ?_) fun hno => hno ⟨by omega, hslot, hfit.resolve_left hnil⟩
      rw [hall] at hlen
      omega
  · refine .inr ⟨by rw [hfail]; decide, fun ⟨hlt, hslot, hfits⟩ => hfit ⟨hslot, .inr ?_⟩⟩
    rwa [hlen, Nat.min_eq_left (by omega)]

private theorem cmdCp_iff :
    ∃ report d', vol.cmdCp d src dst = some (report, d') ∧
      ((if report.red then vol.HasFile d' root src content
        else vol.HasFile d' root dst content ∧ vol.HasFile d' root src content) ↔
          ¬ Truncates vol img root content) := by
  obtain ⟨r, d₁, img₁, he, -, hkept, hres⟩ := copied hg h hl hsrc hdst ht hfree
  unfold Volume.cmdCp
  rw [sourceBuf_eq hg h hl hsrc ht, Option.bind_eq_bind, Option.bind_some]
  dsimp only
  rw [he, Option.bind_eq_bind, Option.bind_some]
  dsimp only
  rcases hres with ⟨hzero, hfile, hiff, -⟩ | ⟨hne, hno⟩
  · rw [if_pos hzero]
    refine ⟨_, d₁, rfl, ?_⟩
    rw [if_neg Bool.false_ne_true, hfile.iff hdst, hiff]
    exact and_iff_left ⟨t, hkept⟩
  · rw [if_neg hne]
    refine ⟨_, d₁, rfl, ?_⟩
    rw [if_pos rfl]
    exact iff_of_true ⟨t, hkept⟩ hno

private theorem cmdMv_iff :
    ∃ report d', vol.cmdMv d src dst = some (report, d') ∧
      ((if report.red then vol.HasFile d' root src content
        else vol.HasFile d' root dst content ∧ vol.Unnamed (vol.image d') root src) ↔
          ¬ Truncates vol img root content) := by
  obtain ⟨r, d₁, img₁, he, h₁, hkept, hres⟩ := copied hg h hl hsrc hdst ht hfree
  unfold Volume.cmdMv
  rw [sourceBuf_eq hg h hl hsrc ht, Option.bind_eq_bind, Option.bind_some]
  dsimp only
  rw [he, Option.bind_eq_bind, Option.bind_some]
  dsimp only
  rcases hres with ⟨hzero, ⟨u, hu⟩, hiff, own₁, hl₁⟩ | ⟨hne, hno⟩
  · obtain ⟨d₂, he₂, h₂⟩ := h₁.deleteFile hg hl₁ src
    have hlookup := (hkept.found h₁ hsrc).2
    simp only [Volume.deleteImage, hlookup] at he₂ h₂
    obtain ⟨hmem, hlive, hraw⟩ := lookup_spec hlookup
    have hut : u ≠ t := by
      rintro rfl
      have hraw' := hu.raw
      rw [h₁.image, hraw] at hraw'
      exact names_differ h hsrc ht hfree ((hsrc.shown hraw).symm.trans (hdst.shown (hraw.trans hraw')))
    have hu₂ := hu.frame hg h₁ h₂ hl₁ (hl₁.deleted hmem hlive).1 hut (by simp)
    have hgone := hkept.deleted h₁ hl₁
    rw [if_neg (not_not.mpr hzero), he₂, Option.bind_some]
    refine ⟨_, d₂, rfl, ?_⟩
    rw [if_neg Bool.false_ne_true, Volume.HasFile.iff ⟨u, hu₂⟩ hdst, hiff, h₂.image]
    exact and_iff_left hgone
  · rw [if_pos hne]
    refine ⟨_, d₁, rfl, ?_⟩
    rw [if_pos rfl]
    exact iff_of_true ⟨t, hkept⟩ hno

end commands

/-- The commands cp and mv keep the content, under the new name if they report
success and under the old one if mv does not, exactly if the file is not longer
than the buffer or there is no room for what the buffer takes. -/
theorem copy_and_move_keep_iff (hg : vol.Geometry) (h : vol.Shows d img) (hl : vol.Layout img root own)
    (hsrc : Is83 src base ext) (hdst : Is83 dst base' ext') (hfile : vol.HasFile d root src content)
    (hfree : vol.Unnamed img root dst) :
    (∃ report d', vol.cmdCp d src dst = some (report, d') ∧
      ((if report.red then vol.HasFile d' root src content
        else vol.HasFile d' root dst content ∧ vol.HasFile d' root src content) ↔
          content.length ≤ 4096 ∨ vol.freeSlot img root = none ∨ ¬ vol.Fits img.fat 4096)) ∧
    ∃ report d', vol.cmdMv d src dst = some (report, d') ∧
      ((if report.red then vol.HasFile d' root src content
        else vol.HasFile d' root dst content ∧ vol.Unnamed (vol.image d') root src) ↔
          content.length ≤ 4096 ∨ vol.freeSlot img root = none ∨ ¬ vol.Fits img.fat 4096) := by
  obtain ⟨t, ht⟩ := hfile
  have hcond : ¬ Truncates vol img root content ↔
      content.length ≤ 4096 ∨ vol.freeSlot img root = none ∨ ¬ vol.Fits img.fat 4096 := by
    unfold Truncates
    rw [not_and_or, not_and_or, not_lt, not_not]
  rw [← hcond]
  exact ⟨cmdCp_iff hg h hl hsrc hdst ht hfree, cmdMv_iff hg h hl hsrc hdst ht hfree⟩

/-- The file of the small drive under a new name. -/
theorem copy_and_move_keep_iff_small :
    ∃ report d', smallVolume.cmdMv smallDrive [65] [66] = some (report, d') ∧
      if report.red then smallVolume.HasFile d' [2] [65] [104, 101, 108, 108, 111]
      else smallVolume.HasFile d' [2] [66] [104, 101, 108, 108, 111] ∧
        smallVolume.Unnamed (smallVolume.image d') [2] [65] := by
  have hdst : Is83 [66] [66] [] := ⟨by decide, by decide, by decide, by simp [NameChar], by simp, rfl⟩
  have hfree : smallVolume.Unnamed (smallVolume.image smallDrive) [2] [66] := by
    intro u hu hlu
    obtain rfl := small_only u hu hlu
    decide +kernel
  obtain ⟨-, report, d', he, hiff⟩ :=
    copy_and_move_keep_iff small_geometry small_shows small_layout small_name hdst
    ⟨_, small_fileAt⟩ hfree
  exact ⟨report, d', he, hiff.mpr (.inl (by decide))⟩

/-- A volume with clusters of 4096 bytes and one file, A, of 4097 bytes in the
clusters 3 and 4. -/
def largeVolume : Volume := ⟨512, 8, 1, 0, 1, 2, 1, by decide⟩

def largeDrive : Drive where
  sectors lba :=
    if lba = 0 then fun i => if i / 4 = 3 then [4].getD (i % 4) 0
      else if i / 4 < 5 then [0xF8, 0xFF, 0xFF, 0x0F].getD (i % 4) 0 else 0
    else if lba = 1 then storeEntry (fun _ => 0) 0 (newEntry (encode83Name [65]) attrArchive today 3 4097)
    else if lba < 9 then fun _ => 0
    else fun _ => 7
  readFails _ := false
  writeFails _ := false

def largeOwn : Slot → List Nat := Function.update (fun _ => []) smallSlot [3, 4]

theorem large_geometry : largeVolume.Geometry where
  bytes := rfl
  cluster := by decide
  fats := .inl rfl
  entries := by decide
  apart := by decide
  lba := by
    rintro c s ⟨-, hc, hs⟩
    change c < 128 at hc
    change s < 8 at hs
    change 1 + (c - 2) * 8 + s < 2^32
    omega

theorem large_shows : largeVolume.Shows largeDrive (largeVolume.image largeDrive) :=
  ⟨fun _ => rfl, fun _ => rfl, rfl⟩

theorem large_live : ((largeVolume.image largeDrive).entry smallSlot).isLive := by decide +kernel

theorem large_only : ∀ t ∈ largeVolume.slots [2],
    ((largeVolume.image largeDrive).entry t).isLive → t = smallSlot := by decide +kernel

theorem large_layout : largeVolume.Layout (largeVolume.image largeDrive) [2] largeOwn where
  rootChain := ⟨⟨rfl, by decide, by change clusterEoc ≤ _; decide +kernel⟩, by decide⟩
  ends := by unfold Volume.EndsOnce; decide +kernel
  owned := by
    intro t ht hlive
    obtain rfl := large_only t ht hlive
    rw [largeOwn, Function.update_self]
    refine .inr ⟨by simp, ⟨?_, by decide⟩⟩
    have hfirst : ((largeVolume.image largeDrive).entry smallSlot).cluster = 3 := by decide +kernel
    have hnext : (largeVolume.image largeDrive).fat 3 = 4 := by decide +kernel
    rw [hfirst]
    refine ⟨rfl, by decide, ?_⟩
    rw [hnext]
    exact ⟨rfl, by decide, by change clusterEoc ≤ _; decide +kernel⟩
  apartRoot := by
    intro t ht hlive
    obtain rfl := large_only t ht hlive
    rw [largeOwn, Function.update_self]
    simp
  apart := by
    intro t ht u hu hlt hlu htu
    exact absurd ((large_only t ht hlt).trans (large_only u hu hlu).symm) htu

theorem large_sector {c s : Nat} (hc : c = 3 ∨ c = 4) (hs : s < 8) :
    (largeVolume.image largeDrive).data c s = fun _ => 7 := by
  have hin : largeVolume.InData c s := by
    rcases hc with rfl | rfl <;> exact ⟨by decide, by decide, hs⟩
  have hlba : 9 ≤ largeVolume.dataSector c s := by
    change 9 ≤ 1 + (c - 2) * 8 + s
    omega
  simp only [Volume.image, hin, if_true, largeDrive]
  rw [if_neg (by omega), if_neg (by omega), if_neg (by omega)]

theorem large_content :
    largeVolume.content (largeVolume.image largeDrive) (largeOwn smallSlot) 4097 = List.replicate 4097 7 := by
  rw [List.eq_replicate_iff, largeOwn, Function.update_self]
  refine ⟨View.bytes_length _ _ _, fun b hb => ?_⟩
  obtain ⟨i, hi, rfl⟩ := List.mem_map.mp hb
  have hi : i < 4097 := List.mem_range.mp hi
  have hc : [3, 4].getD ((0 + i) / 4096) 0 = 3 ∨ [3, 4].getD ((0 + i) / 4096) 0 = 4 := by
    rcases (show (0 + i) / 4096 = 0 ∨ (0 + i) / 4096 = 1 by omega) with hk | hk <;> rw [hk] <;> decide
  have hs : (0 + i) % 4096 / 512 < 8 := by omega
  exact congrFun (large_sector hc hs) _

theorem large_fileAt : largeVolume.FileAt largeDrive [2] [65] smallSlot (List.replicate 4097 7) := by
  have hsize : ((largeVolume.image largeDrive).entry smallSlot).fileSize = 4097 := by decide +kernel
  exact large_shows.fileAt large_geometry (by decide +kernel) large_live (by decide +kernel) (by decide +kernel)
    (fun u hu hlu _ => large_only u hu hlu) (large_layout.owned smallSlot (by decide +kernel) large_live)
    (by rw [hsize]; exact large_content)

/-- Moving the file loses its last byte, and the report is one of success. -/
theorem move_loses_last_byte :
    largeVolume.HasFile largeDrive [2] [65] (List.replicate 4097 7) ∧
      ∃ report d', largeVolume.cmdMv largeDrive [65] [66] = some (report, d') ∧
        ¬ (if report.red then largeVolume.HasFile d' [2] [65] (List.replicate 4097 7)
          else largeVolume.HasFile d' [2] [66] (List.replicate 4097 7) ∧
            largeVolume.Unnamed (largeVolume.image d') [2] [65]) := by
  have hdst : Is83 [66] [66] [] := ⟨by decide, by decide, by decide, by simp [NameChar], by simp, rfl⟩
  have hfree : largeVolume.Unnamed (largeVolume.image largeDrive) [2] [66] := by
    intro u hu hlu
    obtain rfl := large_only u hu hlu
    decide +kernel
  have htrunc : Truncates largeVolume (largeVolume.image largeDrive) [2] (List.replicate 4097 7) :=
    ⟨by rw [List.length_replicate]; decide, by decide +kernel, by decide +kernel⟩
  obtain ⟨report, d', he, hiff⟩ :=
    cmdMv_iff large_geometry large_shows large_layout small_name hdst large_fileAt hfree
  exact ⟨⟨_, large_fileAt⟩, report, d', he, fun hout => hiff.mp hout htrunc⟩

end GeckoOS.Fs.Fat32
