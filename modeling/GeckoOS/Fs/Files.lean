import GeckoOS.Fs.Atomicity
import GeckoOS.Fs.Lookups
import GeckoOS.Fs.RoundTrip

/-! Files by the names they are listed under, and what `fat32_append_file` makes
of them: it reads a file into a buffer, deletes it and creates it again. -/
namespace GeckoOS.Fs.Fat32
open Lib

/-- The name that an entry is listed under, in upper case. -/
def DirEntry.shown (e : DirEntry) : List UInt8 := ((format83Name e.rawName).takeWhile (· != 0)).map upper

namespace Volume
variable (vol : Volume)

/-- The slot has the entry of the name and no other is listed under it; it is a
file, and reads of fewer than 2^31 bytes give slices of the content. -/
structure FileAt (d : Drive) (root : List Nat) (name : List UInt8) (t : Slot)
  (content : List UInt8) : Prop where
  mem : t ∈ vol.slots root
  live : ((vol.image d).entry t).isLive
  raw : ((vol.image d).entry t).rawName = encode83Name name
  file : ((vol.image d).entry t).isDirectory = false
  only : ∀ u ∈ vol.slots root, ((vol.image d).entry u).isLive →
  ((vol.image d).entry u).shown = name.map upper → u = t
  reads : ∀ offset len, len < 2^31 →
    vol.fileRead d ((vol.image d).entry t).toFile offset len = some ((content.drop offset).take len)

def HasFile (d : Drive) (root : List Nat) (name content : List UInt8) : Prop :=
  ∃ t, vol.FileAt d root name t content

/-- Nothing is listed under the name. -/
def Unnamed (img : Image) (root : List Nat) (name : List UInt8) : Prop :=
  ∀ u ∈ vol.slots root, (img.entry u).isLive → (img.entry u).shown ≠ name.map upper

end Volume

variable {vol : Volume} {d d' : Drive} {img img' : Image} {root : List Nat} {own own' : Slot → List Nat}
  {t u : Slot}
  {raw : RawName} {name base ext content content' text : List UInt8} {e : DirEntry}

theorem Is83.shown (hname : Is83 name base ext) (he : e.rawName = encode83Name name) :
    e.shown = name.map upper := by
  rw [DirEntry.shown, he]
  exact (sameName_iff _ _).mp ((listed_encode_iff fun h0 => (hname.ascii 0 h0).1 rfl).mpr hname.short)

/-- The content is what can be read. -/
private theorem Volume.FileAt.content_eq (hg : vol.Geometry) (h : vol.Shows d img)
    (hl : vol.Layout img root own)
    (ht : vol.FileAt d root name t content) : vol.content img (own t) (img.entry t).fileSize = content := by
  obtain ⟨hmem, hlive, -, hfile, -, hreads⟩ := ht
  rw [h.image] at hlive hfile hreads
  exact content_unique (fun offset => (hl.owned t hmem hlive).fileRead hg h hfile (by omega))
    fun offset => hreads offset 1 (by decide)

theorem Volume.HasFile.unique (h : vol.HasFile d root name content) (h' : vol.HasFile d root name content')
    (hname : Is83 name base ext) : content = content' := by
  obtain ⟨t, ht⟩ := h
  obtain ⟨u, hu⟩ := h'
  obtain rfl := ht.only u hu.mem hu.live (hname.shown hu.raw)
  exact content_unique (fun offset => ht.reads offset 1 (by decide)) fun offset => hu.reads offset 1 (by decide)

theorem Volume.HasFile.iff (h : vol.HasFile d root name content) (hname : Is83 name base ext) :
    vol.HasFile d root name content' ↔ content = content' := ⟨fun h' => h.unique h' hname, fun he => he ▸ h⟩

theorem Volume.HasFile.not_unnamed (h : vol.HasFile d root name content) (hname : Is83 name base ext) :
    ¬ vol.Unnamed (vol.image d) root name := by
  obtain ⟨t, ht⟩ := h
  exact fun hu => hu t ht.mem ht.live (hname.shown ht.raw)

/-- What both ways of finding a file find. -/
theorem Volume.FileAt.found (h : vol.Shows d img) (ht : vol.FileAt d root name t content)
    (hname : Is83 name base ext) :
    vol.listedSlot img root name = some t ∧ vol.lookup img root (encode83Name name) = some t := by
  obtain ⟨hmem, hlive, hraw, hfile, honly, -⟩ := ht
  rw [h.image] at hlive hraw hfile honly
  refine ⟨?_, lookup_eq_some hmem hlive hraw fun a ha b hb hla hlb hra hrb =>
    (honly a ha hla (hname.shown hra)).trans (honly b hb hlb (hname.shown hrb)).symm⟩
  have hlisted : ∀ u, sameName ((format83Name (img.entry u).rawName).takeWhile (· != 0)) name = true ↔
      (img.entry u).shown = name.map upper := fun u => sameName_iff _ _
  cases hs : vol.listedSlot img root name with
  | none =>
    have hno := List.find?_eq_none.mp hs t hmem
    simp [hlive, hfile, (hlisted t).mpr (hname.shown hraw)] at hno
  | some u =>
    have hu := List.find?_some hs
    simp only [Bool.and_eq_true] at hu
    rw [honly u (List.mem_of_find?_eq_some hs) hu.1.1 ((hlisted u).mp hu.2)]

theorem Volume.Unnamed.not_found (hu : vol.Unnamed img root name) (hname : Is83 name base ext) :
    vol.listedSlot img root name = none ∧ vol.lookup img root (encode83Name name) = none := by
  constructor
  · refine List.find?_eq_none.mpr fun u hmem hp => ?_
    simp only [Bool.and_eq_true] at hp
    exact hu u hmem hp.1.1 ((sameName_iff _ _).mp hp.2)
  · refine List.find?_eq_none.mpr fun u hmem hp => ?_
    simp only [Bool.and_eq_true, beq_iff_eq] at hp
    exact hu u hmem hp.1 (hname.shown hp.2)

theorem Volume.Shows.fileAt (hg : vol.Geometry) (h : vol.Shows d img) {l : List Nat} (hmem : t ∈ vol.slots root)
    (hlive : (img.entry t).isLive) (hraw : (img.entry t).rawName = encode83Name name)
    (hfile : (img.entry t).isDirectory = false)
    (honly : ∀ u ∈ vol.slots root, (img.entry u).isLive → (img.entry u).shown = name.map upper → u = t)
    (hown : vol.Owns img.fat (img.entry t) l) (hcontent : vol.content img l (img.entry t).fileSize = content) :
    vol.FileAt d root name t content := by
  have hreads : ∀ offset len, len < 2^31 →
      vol.fileRead d (img.entry t).toFile offset len = some ((content.drop offset).take len) := by
    intro offset len hlen
    rw [hown.fileRead hg h hfile (by omega), hcontent]
  obtain rfl := h.image
  exact ⟨hmem, hlive, hraw, hfile, honly, hreads⟩

/-- Another drive with the same image has the same files. -/
theorem Volume.FileAt.shows (hg : vol.Geometry) (h : vol.Shows d img) (h' : vol.Shows d' img)
    (hl : vol.Layout img root own) (ht : vol.FileAt d root name t content) :
      vol.FileAt d' root name t content := by
  have hcontent := ht.content_eq hg h hl
  obtain ⟨hmem, hlive, hraw, hfile, honly, -⟩ := ht
  rw [h.image] at hlive hraw hfile honly
  exact h'.fileAt hg hmem hlive hraw hfile honly (hl.owned t hmem hlive) hcontent

/-- A change at one slot keeps the file in another, unless it puts the name there. -/
theorem Volume.FileAt.frame (hg : vol.Geometry) (h : vol.Shows d img) (h' : vol.Shows d' img')
    (hl : vol.Layout img root own) (hf : vol.Frame img img' root own t) (hu : vol.FileAt d root name u content)
    (hut : u ≠ t) (hnew : (img'.entry t).isLive → (img'.entry t).shown ≠ name.map upper) :
    vol.FileAt d' root name u content := by
  have hcontent := hu.content_eq hg h hl
  obtain ⟨hmem, hlive, hraw, hfile, honly, -⟩ := hu
  rw [h.image] at hlive hraw hfile honly
  have hentry := hf.entry u hmem hut
  have hown := (hl.owned u hmem hlive).congr (hf.fat u hmem hlive hut)
  rw [← hentry] at hlive hraw hfile hown
  refine h'.fileAt hg hmem hlive hraw hfile (fun v hv hlv hsv => ?_) hown ?_
  · by_cases hvt : v = t
    · subst hvt
      exact absurd hsv (hnew hlv)
    · rw [hf.entry v hv hvt] at hlv hsv
      exact honly v hv hlv hsv
  · rw [hentry, content_congr (hf.data u hmem (hentry ▸ hlive) hut), hcontent]

/-- `fat32_create_file` under a name that is free. -/
theorem Volume.Unnamed.created (hg : vol.Geometry) (hl : vol.Layout img root own) (hname : Is83 name base ext)
    (hfree : vol.Unnamed img root name) (hlen : content.length < 2^32)
    (h' : vol.Shows d' (vol.createImage img root (encode83Name name) content).2) :
    ((vol.freeSlot img root ≠ none ∧ (content = [] ∨ vol.Fits img.fat content.length)) ∧
      (vol.createImage img root (encode83Name name) content).1 = 0 ∧ vol.HasFile d' root name content ∧
      ∃ own', vol.Layout (vol.createImage img root (encode83Name name) content).2 root own') ∨
    (¬ (vol.freeSlot img root ≠ none ∧ (content = [] ∨ vol.Fits img.fat content.length)) ∧
      (vol.createImage img root (encode83Name name) content).1 = -1 ∧
      vol.Unnamed (vol.image d') root name) := by
  obtain ⟨he, hf⟩ := encode83Name_first hname.ascii
  rw [h'.image]
  rcases create_cases hg hl he hf hlen with
    ⟨hno, hfail⟩ | ⟨t, ht, hframe, ⟨hfit, hzero, own', hlayout, hh⟩ | ⟨hne, hfit, hfail, hsame⟩⟩
  · refine .inr ⟨fun hc => hc.1 hno, by rw [hfail], ?_⟩
    rw [hfail]
    exact hfree
  · have hfile := h'.fileAt hg hh.mem hh.live hh.name hh.file (fun u hu hlu hsu => ?_)
      (hlayout.owned t hh.mem hh.live) hh.content
    · exact .inl ⟨⟨by simp [ht], hfit⟩, hzero, ⟨t, hfile⟩, own', hlayout⟩
    · by_contra hut
      rw [hframe.entry u hu hut] at hlu hsu
      exact hfree u hu hlu hsu
  · refine .inr ⟨fun hc => hc.2.elim hne hfit, hfail, fun u hu => ?_⟩
    by_cases hut : u = t
    · rw [hut, hsame]
      exact hfree t (hut ▸ hu)
    · rw [hframe.entry u hu hut]
      exact hfree u hu

/-- `fat32_delete_file` on the only entry listed under its name. -/
theorem Volume.FileAt.deleted (h : vol.Shows d img) (hl : vol.Layout img root own)
    (ht : vol.FileAt d root name t content) :
    vol.Unnamed ((img.release (own t)).setEntry t (img.entry t).deleted) root name := by
  obtain ⟨hmem, hlive, -, -, honly, -⟩ := ht
  rw [h.image] at hlive honly
  intro u hu hlu hsu
  by_cases hut : u = t
  · subst hut
    rw [entry_setEntry, deleted_isLive] at hlu
    cases hlu
  · rw [(hl.deleted hmem hlive).1.entry u hu hut] at hlu hsu
    exact hut (honly u hu hlu hsu)

/-! `fat32_write_file` on the entry with the name. -/

/-- The clusters of the entry are free again when the content is put on clusters. -/
theorem write_succeeds (hg : vol.Geometry) (hl : vol.Layout img root own)
    (ht : vol.lookup img root raw = some t)
    (hroom : content = [] ∨ vol.clustersNeeded content.length ≤
      (vol.freeClusters img.fat).length + (own t).length) :
    (vol.writeImage img root own raw content).1 = 0 := by
  obtain ⟨hmem, hlive, -⟩ := lookup_spec ht
  have ho := hl.owned t hmem hlive
  have hcount := (freeClusters_release ho.nodup (fun c => ho.inside) fun c => ho.fat_ne_zero).length_eq
  rw [List.length_append] at hcount
  unfold Volume.writeImage
  rw [ht]
  rcases storeAt_result hg (img.release (own t)) t content
    fun first => (img.entry t).rewrite first (content.length % 2^32) with ⟨-, he⟩ | ⟨hne, hfit, -⟩
  · exact congrArg Prod.fst he
  · rw [Volume.Fits, hcount] at hfit
    exact absurd (hroom.resolve_left hne) hfit

/-- A content that is not longer than the one of the file fits onto the clusters of the file. -/
theorem Volume.FileAt.room (hg : vol.Geometry) (h : vol.Shows d img) (hl : vol.Layout img root own)
    (ht : vol.FileAt d root name t content) (hle : text.length ≤ content.length) :
    text = [] ∨ vol.clustersNeeded text.length ≤ (own t).length := by
  have hlen := congrArg List.length (ht.content_eq hg h hl)
  rw [Volume.content, View.bytes_length] at hlen
  have hpos := (clusterSize_eq hg).2.1
  by_cases hnil : text = []
  · exact .inl hnil
  · have hlong : text.length ≠ 0 := fun hz => hnil (List.length_eq_zero_iff.mp hz)
    have hbound : text.length ≤ (own t).length * vol.clusterSize := by omega
    rw [Volume.clustersNeeded, if_neg hlong]
    refine .inr (Nat.lt_succ_iff.mp ((Nat.div_lt_iff_lt_mul hpos).mpr ?_))
    rw [Nat.succ_mul]
    omega

theorem Volume.FileAt.written (hg : vol.Geometry) (h : vol.Shows d img) (hl : vol.Layout img root own)
    (hname : Is83 name base ext) (ht : vol.FileAt d root name t content) (hlen : text.length < 2^32)
    (hs : (vol.writeImage img root own (encode83Name name) text).1 = 0)
    (h' : vol.Shows d' (vol.writeImage img root own (encode83Name name) text).2) :
    vol.FileAt d' root name t text ∧
      ∃ own', vol.Layout (vol.writeImage img root own (encode83Name name) text).2 root own' := by
  have hlookup := (ht.found h hname).2
  obtain ⟨-, -, -, hfile, honly, -⟩ := ht
  rw [h.image] at hfile honly
  obtain ⟨own', hlayout, hsame, -, hholds⟩ := rewritten hg hl hlookup hlen hs
  have hh := hholds hfile
  refine ⟨h'.fileAt hg hh.mem hh.live hh.name hh.file (fun u hu hlu hsu => ?_)
    (hlayout.owned t hh.mem hh.live) hh.content, own', hlayout⟩
  by_contra hut
  rw [hsame u hu hut] at hlu hsu
  exact hut (honly u hu hlu hsu)

/-! `fat32_append_file`. -/

/-- What the buffer takes is everything exactly up to its limits. -/
private theorem appendBuf_eq_iff (c text : List UInt8) :
    Volume.appendBuf (c.take 4000) text = c ++ text ↔ c.length ≤ 4000 ∧ c.length + text.length ≤ 4095 := by
  unfold Volume.appendBuf
  constructor
  · intro he
    have hlen := congrArg List.length he
    simp only [List.length_append, List.length_take] at hlen
    omega
  · rintro ⟨hc, ht⟩
    rw [List.take_of_length_le hc, List.take_of_length_le (by omega)]

private theorem appendBuf_length (c text : List UInt8) :
    (Volume.appendBuf (c.take 4000) text).length ≤ 4095 := by
  simp only [Volume.appendBuf, List.length_append, List.length_take]
  omega

/-- The deleted entry leaves its slot and its clusters to the new one. -/
private theorem room_deleted (hl : vol.Layout img root own) (hmem : t ∈ vol.slots root)
    (hlive : (img.entry t).isLive)
    (len : Nat) :
    vol.freeSlot ((img.release (own t)).setEntry t (img.entry t).deleted) root ≠ none ∧
      (vol.Fits ((img.release (own t)).setEntry t (img.entry t).deleted).fat len ↔
        vol.clustersNeeded len ≤ (vol.freeClusters img.fat).length + (own t).length) := by
  have ho := hl.owned t hmem hlive
  have hcount := (freeClusters_release ho.nodup (fun c => ho.inside) fun c => ho.fat_ne_zero).length_eq
  rw [List.length_append] at hcount
  refine ⟨fun hnone => ?_, by rw [← hcount]; rfl⟩
  have hno := List.find?_eq_none.mp hnone t hmem
  simp [DirEntry.isFree, DirEntry.first, DirEntry.deleted] at hno

private theorem append_existing_iff (hg : vol.Geometry) (h : vol.Shows d img) (hl : vol.Layout img root own)
    (hname : Is83 name base ext) (ht : vol.FileAt d root name t content)
    (h' : vol.Shows d' (vol.appendImage img root own name text).2) :
    (((vol.appendImage img root own name text).1 = 0 ∧ vol.HasFile d' root name (content ++ text)) ∨
        ((vol.appendImage img root own name text).1 ≠ 0 ∧ vol.HasFile d' root name content)) ↔
      content.length ≤ 4000 ∧ content.length + text.length ≤ 4095 ∧ (content ++ text = [] ∨
        vol.clustersNeeded (content.length + text.length) ≤
        (vol.freeClusters img.fat).length + (own t).length) := by
  obtain ⟨hlisted, hlookup⟩ := ht.found h hname
  obtain ⟨hmem, hlive, -⟩ := lookup_spec hlookup
  have hbase : vol.appendBase img root own name = (img.release (own t)).setEntry t (img.entry t).deleted := by
    simp only [Volume.appendBase, hlisted, Volume.deleteImage, hlookup]
  have hbuf : vol.appendContent img root own name text = Volume.appendBuf (content.take 4000) text := by
    simp only [Volume.appendContent, hlisted, ht.content_eq hg h hl]
  have hlen := appendBuf_length content text
  have hroom := room_deleted hl hmem hlive
  unfold Volume.appendImage at h' ⊢
  rw [hbase, hbuf] at h' ⊢
  rcases (ht.deleted h hl).created hg (hl.deleted hmem hlive).2 hname (by omega) h' with
    ⟨hfit, hzero, hfile, -⟩ | ⟨hfit, hfail, hgone⟩
  · rw [hzero, ← and_assoc, ← appendBuf_eq_iff]
    constructor
    · rintro (⟨-, hnew⟩ | ⟨hne, -⟩)
      · have he := hfile.unique hnew hname
        rw [he, (hroom _).2, List.length_append] at hfit
        exact ⟨he, hfit.2⟩
      · exact absurd rfl hne
    · rintro ⟨he, -⟩
      rw [he] at hfile
      exact .inl ⟨rfl, hfile⟩
  · have hnone : ∀ c, ¬ vol.HasFile d' root name c := fun c hc => hc.not_unnamed hname hgone
    refine iff_of_false (fun ho => ?_) fun ⟨hc, hsum, hneed⟩ => ?_
    · exact ho.elim (fun ho => hnone _ ho.2) fun ho => hnone _ ho.2
    · rw [(appendBuf_eq_iff content text).mpr ⟨hc, hsum⟩, (hroom _).2, List.length_append] at hfit
      exact hfit ⟨(hroom 0).1, hneed⟩

private theorem append_new_iff (hg : vol.Geometry) (h : vol.Shows d img) (hl : vol.Layout img root own)
    (hname : Is83 name base ext) (hfree : vol.Unnamed img root name)
    (h' : vol.Shows d' (vol.appendImage img root own name text).2) :
    (((vol.appendImage img root own name text).1 = 0 ∧ vol.HasFile d' root name text) ∨
        ((vol.appendImage img root own name text).1 ≠ 0 ∧ vol.Unchanged d d' root)) ↔
      vol.freeSlot img root = none ∨ vol.freeClusters img.fat = [] ∨
        (vol.Fits img.fat text.length ∧ text.length ≤ 4095) := by
  have hlisted := (hfree.not_found hname).1
  have hbase : vol.appendBase img root own name = img := by simp only [Volume.appendBase, hlisted]
  have hbuf : vol.appendContent img root own name text = text.take 4095 := by
    simp only [Volume.appendContent, hlisted, Volume.appendBuf]
    rfl
  have hlen : (text.take 4095).length = min 4095 text.length := List.length_take
  unfold Volume.appendImage at h' ⊢
  rw [hbase, hbuf] at h' ⊢
  have hroom := create_atomic_iff hg h hl (encode83Name name) (text.take 4095) h'
  rcases hfree.created hg hl hname (by omega) h' with ⟨⟨hslot, hfit⟩, hzero, hfile, -⟩ | ⟨hfit, hfail, hgone⟩
  · rw [hzero]
    constructor
    · rintro (⟨-, hnew⟩ | ⟨hne, -⟩)
      · have he := hfile.unique hnew hname
        have hle : text.length ≤ 4095 := by
          rw [← he, hlen]
          exact Nat.min_le_left _ _
        rw [he] at hfit
        rcases hfit with rfl | hfit
        · rcases fits_zero img.fat with hz | hz
          · exact .inr (.inr ⟨hz, hle⟩)
          · exact .inr (.inl hz)
        · exact .inr (.inr ⟨hfit, hle⟩)
      · exact absurd rfl hne
    · rintro (hno | hno | ⟨-, hle⟩)
      · exact absurd hno hslot
      · -- without free clusters only an empty file can have been created
        rcases hfit with hnil | hfit
        · have htext : text = [] := by
            have hz := congrArg List.length hnil
            rw [hlen, List.length_nil] at hz
            exact List.length_eq_zero_iff.mp (by omega)
          rw [htext, List.take_nil] at hfile
          exact .inl ⟨rfl, htext ▸ hfile⟩
        · have hpos := clustersNeeded_pos hg (text.take 4095).length
          rw [Volume.Fits, hno, List.length_nil] at hfit
          omega
      · rw [List.take_of_length_le hle] at hfile
        exact .inl ⟨rfl, hfile⟩
  · rw [hfail] at hroom ⊢
    have hroom' : vol.Unchanged d d' root ↔ vol.CreateRoom img root (text.take 4095).length :=
      ⟨fun hu => hroom.mp fun _ => hu, fun hr => hroom.mpr hr (by decide)⟩
    have hout : (-1 = (0 : Int) ∧ vol.HasFile d' root name text) ∨ (-1 ≠ (0 : Int) ∧ vol.Unchanged d d' root) ↔
        vol.Unchanged d d' root := by simp
    rw [hout, hroom', Volume.CreateRoom]
    constructor
    · rintro (hno | hfits | hno)
      · exact .inl hno
      · by_cases hno : vol.freeSlot img root = none
        · exact .inl hno
        · exact absurd ⟨hno, .inr hfits⟩ hfit
      · exact .inr (.inl hno)
    · rintro (hno | hno | ⟨hfits, hle⟩)
      · exact .inl hno
      · exact .inr (.inr hno)
      · rw [List.take_of_length_le hle]
        exact .inr (.inl hfits)

/-- `fat32_append_file` appends to a file, or fails and leaves the file, exactly if
the content and the text are within its limits and fit into the free clusters and
those of the file. For a new name, it stores the text or changes nothing exactly if
there is no slot, no cluster, or room for a text within the limit. -/
theorem append_appends_iff (hg : vol.Geometry) (h : vol.Shows d img) (hl : vol.Layout img root own)
    (hname : Is83 name base ext) (text : List UInt8) :
    ∃ r d', vol.appendFile d name text = some (r, d') ∧
      (∀ t content, vol.FileAt d root name t content →
        ((r = 0 ∧ vol.HasFile d' root name (content ++ text)) ∨ (r ≠ 0 ∧ vol.HasFile d' root name content) ↔
          content.length ≤ 4000 ∧ content.length + text.length ≤ 4095 ∧ (content ++ text = [] ∨
            vol.clustersNeeded (content.length + text.length) ≤
              (vol.freeClusters img.fat).length + (own t).length))) ∧
      (vol.Unnamed img root name →
        ((r = 0 ∧ vol.HasFile d' root name text) ∨ (r ≠ 0 ∧ vol.Unchanged d d' root) ↔
          vol.freeSlot img root = none ∨ vol.freeClusters img.fat = [] ∨
            (vol.Fits img.fat text.length ∧ text.length ≤ 4095))) := by
  obtain ⟨d', he, h'⟩ := h.appendFile hg hl name text
  exact ⟨_, d', he, fun t content ht => append_existing_iff hg h hl hname ht h',
    fun hfree => append_new_iff hg h hl hname hfree h'⟩

/-- The file on the small drive. -/
theorem small_fileAt : smallVolume.FileAt smallDrive [2] [65] smallSlot [104, 101, 108, 108, 111] :=
  small_shows.fileAt small_geometry (by decide) small_live (by decide +kernel) (by decide +kernel)
    (fun u hu hlu _ => small_only u hu hlu) (small_layout.owned smallSlot (by decide) small_live)
      (by decide +kernel)

theorem small_name : Is83 [65] [65] [] := ⟨by decide, by decide, by decide, by simp [NameChar], by simp, rfl⟩

theorem append_appends_iff_small :
    ∃ r d', smallVolume.appendFile smallDrive [65] [33] = some (r, d') ∧
      ((r = 0 ∧ smallVolume.HasFile d' [2] [65] [104, 101, 108, 108, 111, 33]) ∨
        (r ≠ 0 ∧ smallVolume.HasFile d' [2] [65] [104, 101, 108, 108, 111])) := by
  obtain ⟨r, d', he, hold, -⟩ := append_appends_iff small_geometry small_shows small_layout small_name [33]
  exact ⟨r, d', he, (hold smallSlot _ small_fileAt).mpr (by decide +kernel)⟩

/-- A text for which the clusters do not suffice: the file is gone. -/
theorem failed_append_loses_file :
    smallVolume.HasFile smallDrive [2] [65] [104, 101, 108, 108, 111] ∧
      ∃ r d', smallVolume.appendFile smallDrive [65] (List.replicate 1020 33) = some (r, d') ∧
        ¬ ((r = 0 ∧ smallVolume.HasFile d' [2] [65] ([104, 101, 108, 108, 111] ++ List.replicate 1020 33)) ∨
          (r ≠ 0 ∧ smallVolume.HasFile d' [2] [65] [104, 101, 108, 108, 111])) := by
  obtain ⟨d', he, h'⟩ := small_shows.appendFile small_geometry small_layout [65] (List.replicate 1020 33)
  refine ⟨⟨_, small_fileAt⟩, _, d', he, fun hout => ?_⟩
  have hno := (append_existing_iff small_geometry small_shows small_layout small_name small_fileAt h').mp hout
  revert hno
  decide +kernel

end GeckoOS.Fs.Fat32
