import GeckoOS.Editor.VerticalMoves
import GeckoOS.Fs.Commands

/-! `ed_load` and `ed_save`: a file is read into the buffer of the editor and written
back under the same name. -/
namespace GeckoOS.Editor
open Lib Fs.Fat32

namespace Buffer

/-- `ed_buf[ed_len++] = c`. -/
def put (e : Buffer) (c : UInt8) : Buffer := { e with buf := Function.update e.buf e.len c, len := e.len + 1 }

/-- The bytes of one read, as far as the buffer has room. -/
def storeChunk : List UInt8 → Buffer → Buffer
  | [], e => e
  | c :: cs, e => if e.len < editorMaxFilesize - 1 then storeChunk cs (e.put c) else e

/-- Each pass but the last stores a byte at least. -/
def loadLoop (vol : Volume) (d : Drive) (f : File) : Nat → Nat → Buffer → Buffer
  | 0, _, e => e
  | fuel + 1, offset, e =>
    if e.len < editorMaxFilesize - 1 then
      match vol.fileRead d f offset 128 with
      | none => e
      | some [] => e
      | some (b :: bytes) => loadLoop vol d f fuel (offset + (b :: bytes).length) (storeChunk (b :: bytes) e)
    else e

/-- `ed_len = 0; ed_buf[0] = '\0'`. -/
def emptied (e : Buffer) : Buffer := { e with buf := Function.update e.buf 0 0, len := 0 }

/-- `ed_buf[ed_len] = '\0'`. -/
def terminated (e : Buffer) : Buffer := { e with buf := Function.update e.buf e.len 0 }

/-- `ed_load` on a mounted filesystem. -/
def load (vol : Volume) (d : Drive) (filename : List UInt8) (e : Buffer) : Option Buffer :=
  (vol.getRootEntries d).map fun entries =>
    match Volume.findListed filename entries with
    | none => e.emptied
    | some f => (loadLoop vol d f 4096 0 e.emptied).terminated

/-- `ed_save` on a mounted filesystem. -/
def saveAs (vol : Volume) (d : Drive) (filename : List UInt8) (e : Buffer) : Option (Buffer × Drive) :=
  (vol.writeFile d filename e.content).map fun r => (e.save (r.1 = 0), r.2)

/-- The text is in the buffer. -/
structure Bounded (e : Buffer) : Prop where
  len_nonneg : 0 ≤ e.len
  len_le : e.len ≤ 4095

variable {e : Buffer} {vol : Volume} {d : Drive} {f : File} {text : List UInt8}

theorem content_length (h : 0 ≤ e.len) : (e.content.length : Int) = e.len := by
  rw [content, slice_length]
  omega

theorem content_put (h : 0 ≤ e.len) (c : UInt8) : (e.put c).content = e.content ++ [c] := by
  have hlast : (e.put c).buf e.len = c := Function.update_self ..
  have hrest : slice (e.put c).buf 0 e.len = slice e.buf 0 e.len :=
    slice_unchanged fun k _ hk => Function.update_of_ne (by omega) ..
  show slice (e.put c).buf 0 (e.len + 1) = _
  rw [slice_succ _ h, hlast, hrest, content]

theorem storeChunk_content (cs : List UInt8) (h : e.Bounded) :
    (storeChunk cs e).Bounded ∧ (storeChunk cs e).content = (e.content ++ cs).take 4095 := by
  have hlen := content_length h.len_nonneg
  have hle := h.len_le
  induction cs generalizing e with
  | nil =>
    refine ⟨h, ?_⟩
    rw [List.append_nil, List.take_of_length_le (by omega), storeChunk]
  | cons c cs ih =>
    rw [storeChunk]
    by_cases hroom : e.len < editorMaxFilesize - 1
    · have hlt : e.len < 4095 := hroom
      have hput : (e.put c).Bounded :=
        ⟨show 0 ≤ e.len + 1 by have := h.len_nonneg; omega, show e.len + 1 ≤ 4095 by omega⟩
      obtain ⟨hbounded, hcontent⟩ := ih hput (content_length hput.len_nonneg) hput.len_le
      refine ⟨by rwa [if_pos hroom], ?_⟩
      rw [if_pos hroom, hcontent, content_put h.len_nonneg, List.append_assoc, List.singleton_append]
    · have hfull : ¬ e.len < 4095 := hroom
      refine ⟨by rwa [if_neg hroom], ?_⟩
      rw [if_neg hroom, List.take_left' (by omega)]

/-- The loop takes the text from its reads, up to the size of the buffer. -/
theorem loadLoop_content (hread : ∀ offset, vol.fileRead d f offset 128 = some ((text.drop offset).take 128))
    {fuel offset : Nat} (h : e.Bounded) (hcontent : e.content = (text.take offset).take 4095)
    (hfuel : 4095 ≤ offset + fuel) :
    (loadLoop vol d f fuel offset e).Bounded ∧ (loadLoop vol d f fuel offset e).content = text.take 4095 := by
  induction fuel generalizing e offset with
  | zero =>
    refine ⟨h, ?_⟩
    rw [loadLoop, hcontent, List.take_take, Nat.min_eq_left (by omega)]
  | succ fuel ih =>
    have hlen := content_length h.len_nonneg
    have hshort : e.content.length = min 4095 (min offset text.length) := by
      rw [hcontent, List.length_take, List.length_take]
    rw [loadLoop]
    by_cases hroom : e.len < editorMaxFilesize - 1
    · have hlt : e.len < 4095 := hroom
      rw [if_pos hroom, hread]
      cases hchunk : (text.drop offset).take 128 with
      | nil =>
        refine ⟨h, ?_⟩
        have hend : text.length ≤ offset := by
          have hnone := congrArg List.length hchunk
          rw [List.length_take, List.length_drop, List.length_nil] at hnone
          omega
        show e.content = _
        rw [hcontent, List.take_of_length_le hend]
      | cons b bytes =>
        obtain ⟨hbounded, hstored⟩ := storeChunk_content (b :: bytes) h
        have hwhole : e.content = text.take offset := by
          rw [hcontent]
          refine List.take_of_length_le ?_
          rw [List.length_take]
          omega
        have hchunk' : b :: bytes = (text.drop offset).take (b :: bytes).length := by
          rw [← hchunk, List.length_take]
          exact List.take_eq_take_min
        refine ih hbounded ?_ ?_
        · rw [hstored, hwhole, List.take_add, ← hchunk']
        · rw [List.length_cons]
          omega
    · have hfull : ¬ e.len < 4095 := hroom
      rw [if_neg hroom]
      refine ⟨h, ?_⟩
      rw [hcontent, List.take_take, Nat.min_eq_left (by omega)]

theorem terminated_content (e : Buffer) : e.terminated.content = e.content := by
  refine slice_unchanged fun k _ hk => ?_
  have hlt : k < e.len := hk
  exact Function.update_of_ne (by omega) ..

theorem emptied_content (e : Buffer) : e.emptied.content = [] := slice_self ..

theorem emptied_bounded (e : Buffer) : e.emptied.Bounded := ⟨Int.le_refl 0, show (0 : Int) ≤ 4095 by decide⟩

end Buffer

/-- What is listed under the name is the entry with the name, and nothing else. -/
def Addressed (vol : Volume) (img : Image) (root : List Nat) (name : List UInt8) : Prop :=
  ∀ t ∈ vol.slots root, (img.entry t).isLive → (img.entry t).shown = name.map upper →
    (img.entry t).rawName = encode83Name name ∧
      ∀ u ∈ vol.slots root, (img.entry u).isLive → (img.entry u).shown = name.map upper → u = t

/-- A directory has the name. -/
def NamesDirectory (vol : Volume) (img : Image) (root : List Nat) (name : List UInt8) : Prop :=
  ∃ t, vol.lookup img root (encode83Name name) = some t ∧ (img.entry t).isDirectory = true

/-- There are clusters for the text, those of the file included, and a slot if there is no
entry yet. -/
def Room (vol : Volume) (img : Image) (root : List Nat) (own : Slot → List Nat)
    (name text : List UInt8) : Prop :=
  match vol.lookup img root (encode83Name name) with
  | none => vol.freeSlot img root ≠ none ∧ (text = [] ∨ vol.Fits img.fat text.length)
  | some t => text = [] ∨ vol.clustersNeeded text.length ≤ (vol.freeClusters img.fat).length + (own t).length

variable {vol : Volume} {d d' : Drive} {img img' : Image} {root : List Nat} {own : Slot → List Nat} {t : Slot}
  {name base ext content text : List UInt8} {e : Buffer}

section
variable (hg : vol.Geometry) (h : vol.Shows d img) (hl : vol.Layout img root own) (hname : Is83 name base ext)
include hg h hl hname

/-- Of a file, the buffer takes the first 4095 bytes. -/
theorem load_file (ht : vol.FileAt d root name t content) (e : Buffer) :
    ∃ loaded, e.load vol d name = some loaded ∧ loaded.Bounded ∧ loaded.content = content.take 4095 := by
  have hempty : e.emptied.content = (content.take 0).take 4095 := e.emptied_content
  have hfuel : 4095 ≤ 0 + 4096 := by decide
  obtain ⟨hbounded, hcontent⟩ :=
    Buffer.loadLoop_content (fun offset => ht.reads offset 128 (by decide)) e.emptied_bounded hempty hfuel
  rw [h.image] at hbounded hcontent
  refine ⟨(Buffer.loadLoop vol d (img.entry t).toFile 4096 0 e.emptied).terminated, ?_,
    ⟨hbounded.len_nonneg, hbounded.len_le⟩, (Buffer.terminated_content _).trans hcontent⟩
  rw [Buffer.load, h.getRootEntries hg hl.rootChain hl.ends, Option.map_some, findListed_eq,
    (ht.found h hname).1]
  rfl

omit hname in
/-- Where listings have no file of the name, the buffer is empty. -/
theorem load_none (hnone : vol.listedSlot img root name = none) (e : Buffer) :
    e.load vol d name = some e.emptied := by
  rw [Buffer.load, h.getRootEntries hg hl.rootChain hl.ends, Option.map_some, findListed_eq, hnone]
  rfl

omit hname in
/-- A save that `fat32_write_file` carries out. -/
theorem saveAs_eq (hzero : (vol.writeImage img root own (encode83Name name) e.content).1 = 0) :
    ∃ d', e.saveAs vol d name = some (e.save true, d') ∧
      vol.Shows d' (vol.writeImage img root own (encode83Name name) e.content).2 := by
  obtain ⟨d', hwrite, h'⟩ := h.writeFile hg hl name e.content
  refine ⟨d', ?_, h'⟩
  rw [Buffer.saveAs, hwrite, hzero]
  rfl

/-- Loading and saving a file cuts it to the size of the buffer. -/
theorem load_save_file (ht : vol.FileAt d root name t content) (e : Buffer) :
    ∃ loaded saved d', e.load vol d name = some loaded ∧ loaded.saveAs vol d name = some (saved, d') ∧
      saved.dirty = false ∧
      vol.HasFile d' root name (content.take 4095) := by
  obtain ⟨loaded, hload, -, hcontent⟩ := load_file hg h hl hname ht e
  have hlookup := (ht.found h hname).2
  have hlen : (content.take 4095).length ≤ content.length := by
    rw [List.length_take]
    exact Nat.min_le_right _ _
  have hshort : (content.take 4095).length < 2^32 := by
    rw [List.length_take]
    omega
  have hroom := (ht.room hg h hl hlen).imp_right fun hle =>
    Nat.le_trans hle (Nat.le_add_left _ (vol.freeClusters img.fat).length)
  have hzero := write_succeeds hg hl hlookup hroom
  rw [← hcontent] at hzero hshort
  obtain ⟨d', hsave, h'⟩ := saveAs_eq hg h hl hzero
  obtain ⟨hfile, -⟩ := ht.written hg h hl hname hshort hzero h'
  rw [hcontent] at hfile
  exact ⟨loaded, loaded.save true, d', hload, hsave, rfl, t, hfile⟩

/-- A new name. -/
theorem save_load_new (hfree : vol.Unnamed img root name) (hb : e.Bounded)
    (hroom : Room vol img root own name e.content) :
    ∃ d', e.saveAs vol d name = some (e.save true, d') ∧
      ∀ e' : Buffer, ∃ loaded, e'.load vol d' name = some loaded ∧ loaded.content = e.content := by
  have hlen := Buffer.content_length hb.len_nonneg
  have hle := hb.len_le
  have hlookup := (hfree.not_found hname).2
  unfold Room at hroom
  rw [hlookup] at hroom
  have himage : vol.writeImage img root own (encode83Name name) e.content =
      vol.createImage img root (encode83Name name) e.content := by
    unfold Volume.writeImage
    rw [hlookup]
  obtain ⟨d₁, -, h₁⟩ := h.createFile hg hl name e.content
  have hzero : (vol.writeImage img root own (encode83Name name) e.content).1 = 0 := by
    rw [himage]
    rcases hfree.created hg hl hname (by omega) h₁ with ⟨-, hzero, -⟩ | ⟨hno, -⟩
    · exact hzero
    · exact absurd hroom hno
  obtain ⟨d', hsave, h'⟩ := saveAs_eq hg h hl hzero
  refine ⟨d', hsave, fun e' => ?_⟩
  rw [himage] at h'
  rcases hfree.created hg hl hname (by omega) h' with ⟨-, -, ⟨t, ht⟩, own', hl'⟩ | ⟨hno, -⟩
  · obtain ⟨loaded, hload, -, hcontent⟩ := load_file hg h' hl' hname ht e'
    exact ⟨loaded, hload, hcontent.trans (List.take_of_length_le (by omega))⟩
  · exact absurd hroom hno

/-- The name of a file. -/
theorem save_load_file (ht : vol.FileAt d root name t content) (hb : e.Bounded)
    (hroom : Room vol img root own name e.content) :
    ∃ d', e.saveAs vol d name = some (e.save true, d') ∧
      ∀ e' : Buffer, ∃ loaded, e'.load vol d' name = some loaded ∧ loaded.content = e.content := by
  have hlen := Buffer.content_length hb.len_nonneg
  have hle := hb.len_le
  have hlookup := (ht.found h hname).2
  unfold Room at hroom
  rw [hlookup] at hroom
  have hzero := write_succeeds hg hl hlookup hroom
  obtain ⟨d', hsave, h'⟩ := saveAs_eq hg h hl hzero
  obtain ⟨hfile, own', hl'⟩ := ht.written hg h hl hname (by omega) hzero h'
  refine ⟨d', hsave, fun e' => ?_⟩
  obtain ⟨loaded, hload, -, hcontent⟩ := load_file hg h' hl' hname hfile e'
  exact ⟨loaded, hload, hcontent.trans (List.take_of_length_le (by omega))⟩

omit hname in
/-- The name of a directory: it stays one, and listings have no file of the name. -/
theorem save_load_directory (hlookup : vol.lookup img root (encode83Name name) = some t)
    (hdir : (img.entry t).isDirectory = true)
    (honly : ∀ u ∈ vol.slots root, (img.entry u).isLive → (img.entry u).shown = name.map upper → u = t)
    (hb : e.Bounded) (hroom : Room vol img root own name e.content) :
    ∃ d', e.saveAs vol d name = some (e.save true, d') ∧ ∀ e' : Buffer,
      e'.load vol d' name = some e'.emptied := by
  have hlen := Buffer.content_length hb.len_nonneg
  have hle := hb.len_le
  unfold Room at hroom
  rw [hlookup] at hroom
  have hzero := write_succeeds hg hl hlookup hroom
  obtain ⟨d', hsave, h'⟩ := saveAs_eq hg h hl hzero
  obtain ⟨own', hl', hsame, ⟨first, size, hentry⟩, -⟩ := rewritten hg hl hlookup (by omega) hzero
  refine ⟨d', hsave, fun e' => load_none hg h' hl' (List.find?_eq_none.mpr fun u hu hlisted => ?_) e'⟩
  simp only [Bool.and_eq_true, Bool.not_eq_true'] at hlisted
  obtain ⟨⟨hlu, hfu⟩, hsu⟩ := hlisted
  by_cases hut : u = t
  · rw [hut, hentry, rewrite_isDirectory, hdir] at hfu
    cases hfu
  · rw [hsame u hu hut] at hlu hsu
    exact hut (honly u hu hlu ((sameName_iff _ _).mp hsu))

/-- A saved text is there again when its name is loaded, unless the name is that of a directory. -/
theorem save_load (haddr : Addressed vol img root name) (hb : e.Bounded)
    (hroom : Room vol img root own name e.content) :
    ∃ saved d', e.saveAs vol d name = some (saved, d') ∧ saved.dirty = false ∧ ∀ e' : Buffer, ∃ loaded,
      e'.load vol d' name = some loaded ∧
        (loaded.content = e.content ↔ ¬ NamesDirectory vol img root name ∨ e.content = []) := by
  cases hlookup : vol.lookup img root (encode83Name name) with
  | none =>
    have hfree : vol.Unnamed img root name :=
      fun u hu hlu hsu => lookup_none hlookup hu hlu (haddr u hu hlu hsu).1
    obtain ⟨d', hsave, hloads⟩ := save_load_new hg h hl hname hfree hb hroom
    refine ⟨_, d', hsave, rfl, fun e' => ?_⟩
    obtain ⟨loaded, hload, hcontent⟩ := hloads e'
    refine ⟨loaded, hload, iff_of_true hcontent (.inl ?_)⟩
    rintro ⟨t, ht, -⟩
    rw [hlookup] at ht
    cases ht
  | some t =>
    obtain ⟨hmem, hlive, hraw⟩ := lookup_spec hlookup
    obtain ⟨-, honly⟩ := haddr t hmem hlive (hname.shown hraw)
    cases hdir : (img.entry t).isDirectory with
    | false =>
      have ht := h.fileAt hg hmem hlive hraw hdir honly (hl.owned t hmem hlive) rfl
      obtain ⟨d', hsave, hloads⟩ := save_load_file hg h hl hname ht hb hroom
      refine ⟨_, d', hsave, rfl, fun e' => ?_⟩
      obtain ⟨loaded, hload, hcontent⟩ := hloads e'
      refine ⟨loaded, hload, iff_of_true hcontent (.inl ?_)⟩
      rintro ⟨u, hu, hudir⟩
      obtain rfl := Option.some.inj (hlookup.symm.trans hu)
      rw [hdir] at hudir
      cases hudir
    | true =>
      obtain ⟨d', hsave, hloads⟩ := save_load_directory hg h hl hlookup hdir honly hb hroom
      refine ⟨_, d', hsave, rfl, fun e' => ⟨e'.emptied, hloads e', ?_⟩⟩
      have hnames : NamesDirectory vol img root name := ⟨t, hlookup, hdir⟩
      rw [Buffer.emptied_content]
      exact ⟨fun heq => .inr heq.symm, fun hor => (hor.resolve_left (not_not_intro hnames)).symm⟩

/-- Opening a file and saving it keeps its content exactly if the content fits into the
buffer; and a saved buffer is loaded again exactly unless its name is that of a directory. -/
theorem open_save_iff (haddr : Addressed vol img root name) :
    (∀ content, vol.HasFile d root name content → ∀ e : Buffer, ∃ loaded saved d',
      e.load vol d name = some loaded ∧
      loaded.saveAs vol d name = some (saved, d') ∧
      (vol.HasFile d' root name content ↔ content.length ≤ 4095)) ∧
    ∀ e : Buffer, e.Bounded → Room vol img root own name e.content →
      ∃ saved d', e.saveAs vol d name = some (saved, d') ∧ saved.dirty = false ∧ ∀ e' : Buffer, ∃ loaded,
        e'.load vol d' name = some loaded ∧
          (loaded.content = e.content ↔ ¬ NamesDirectory vol img root name ∨ e.content = []) := by
  refine ⟨fun content ⟨t, ht⟩ e => ?_, fun e hb hroom => save_load hg h hl hname haddr hb hroom⟩
  obtain ⟨loaded, saved, d', hload, hsave, -, hfile⟩ := load_save_file hg h hl hname ht e
  refine ⟨loaded, saved, d', hload, hsave, ?_⟩
  rw [hfile.iff hname]
  constructor
  · intro hall
    have hlen := congrArg List.length hall
    rw [List.length_take] at hlen
    omega
  · exact List.take_of_length_le

end

/-- The file of the small drive, and another text for it. -/
theorem open_save_small :
    (∃ loaded saved d', (Buffer.opened (fun _ => 0) []).load smallVolume smallDrive [65] = some loaded ∧
      loaded.saveAs smallVolume smallDrive [65] = some (saved, d') ∧
      smallVolume.HasFile d' [2] [65] [104, 101, 108, 108, 111]) ∧
    ∃ saved d' loaded, (Buffer.opened (fun _ => 0) [33]).saveAs smallVolume smallDrive [65] = some (saved, d') ∧
      saved.load smallVolume d' [65] = some loaded ∧ loaded.content = [33] := by
  have haddr : Addressed smallVolume (smallVolume.image smallDrive) [2] [65] := by
    intro t ht hlive _
    obtain rfl := small_only t ht hlive
    exact ⟨small_fileAt.raw, fun u hu hlu _ => small_only u hu hlu⟩
  have hdecided : smallVolume.lookup (smallVolume.image smallDrive) [2] (encode83Name [65]) = some smallSlot ∧
      ((smallVolume.image smallDrive).entry smallSlot).isDirectory = false ∧
        (Buffer.opened (fun _ => 0) [33]).content = [33] ∧
      smallVolume.clustersNeeded 1 ≤ (smallVolume.freeClusters (smallVolume.image smallDrive).fat).length := by
    decide +kernel
  obtain ⟨hlookup, hfile, hcontent, hfree⟩ := hdecided
  obtain ⟨hopen, hsave⟩ := open_save_iff small_geometry small_shows small_layout small_name haddr
  obtain ⟨loaded, saved, d', hload, hsaved, hkept⟩ := hopen _ ⟨_, small_fileAt⟩ (Buffer.opened (fun _ => 0) [])
  refine ⟨⟨loaded, saved, d', hload, hsaved, hkept.mpr (by decide)⟩, ?_⟩
  have hroom : Room smallVolume (smallVolume.image smallDrive) [2] smallOwn [65]
    (Buffer.opened (fun _ => 0) [33]).content := by
    unfold Room
    rw [hlookup, hcontent]
    exact .inr (Nat.le_trans hfree (Nat.le_add_right _ _))
  obtain ⟨saved', d'', hsaved', -, hagain⟩ :=
    hsave (Buffer.opened (fun _ => 0) [33]) ⟨by decide, by decide⟩ hroom
  obtain ⟨loaded', hload', hiff⟩ := hagain saved'
  refine ⟨saved', d'', loaded', hsaved', hload', (hiff.mpr (.inl ?_)).trans hcontent⟩
  rintro ⟨t, ht, hdir⟩
  obtain rfl := Option.some.inj (hlookup.symm.trans ht)
  rw [hfile] at hdir
  cases hdir

/-- Opening a file of 4097 bytes and saving it loses the last two of them. -/
theorem open_save_cuts_file :
    largeVolume.HasFile largeDrive [2] [65] (List.replicate 4097 7) ∧
      ∃ loaded saved d', (Buffer.opened (fun _ => 0) []).load largeVolume largeDrive [65] = some loaded ∧
        loaded.saveAs largeVolume largeDrive [65] = some (saved, d') ∧ saved.dirty = false ∧
        ¬ largeVolume.HasFile d' [2] [65] (List.replicate 4097 7) := by
  obtain ⟨loaded, saved, d', hload, hsave, hclean, hfile⟩ :=
    load_save_file large_geometry large_shows large_layout small_name
    large_fileAt (Buffer.opened (fun _ => 0) [])
  refine ⟨⟨_, large_fileAt⟩, loaded, saved, d', hload, hsave, hclean, fun hkept => ?_⟩
  have hlen := congrArg List.length (hfile.unique hkept small_name)
  rw [List.length_take, List.length_replicate] at hlen
  omega

end GeckoOS.Editor
