import GeckoOS.Lib.Bytes
import GeckoOS.Lib.CInt
import GeckoOS.Lib.Scan
import Mathlib.Data.Fintype.Basic
import Mathlib.Data.List.OfFn
import Mathlib.Logic.Function.Basic

/-! The FAT32 driver of fat32.c on a drive of 512-byte sectors. A loop along a
cluster chain has a fuel larger than the number of clusters; `none` is a loop
that does not end. -/
namespace GeckoOS.Fs.Fat32
open Lib

def sectorSize : Nat := 512
def entriesPerSector : Nat := sectorSize / 4
def slotsPerSector : Nat := sectorSize / 32

def clusterBad : Nat := 0x0FFFFFF7
def clusterEoc : Nat := 0x0FFFFFF8

def attrVolumeId : UInt8 := 0x08
def attrDirectory : UInt8 := 0x10
def attrArchive : UInt8 := 0x20
def attrLfn : UInt8 := 0x0F

def entryFree : UInt8 := 0xE5
def entryEnd : UInt8 := 0x00

/-- More steps than a chain without a repeated cluster can have. -/
def chainFuel : Nat := 2^28

/-- Sectors by address; which of them cannot be read or written stays fixed. -/
structure Drive where
  sectors : Nat → View
  readFails : Nat → Bool
  writeFails : Nat → Bool

namespace Drive

def read (d : Drive) (lba : Nat) : Option View := if d.readFails lba then none else some (d.sectors lba)

def write (d : Drive) (lba : Nat) (buf : View) : Option Drive :=
  if d.writeFails lba then none else some { d with sectors := Function.update d.sectors lba buf }

/-- A write whose result the caller does not look at. -/
def put (d : Drive) (lba : Nat) (buf : View) : Drive := (d.write lba buf).getD d

end Drive

/-- The fields of FAT32_Volume and of its boot sector that the operations use. -/
structure Volume where
  bytesPerSector : Nat
  sectorsPerCluster : Nat
  numFats : Nat
  fatLba : Nat
  dataLba : Nat
  rootCluster : Nat
  sectorsPerFat : Nat
  sectorsPerCluster_lt : sectorsPerCluster < 2^8

theorem one_sectorPerCluster_lt : 1 < 2^8 := by decide

/-- The 32 bytes of FAT32_DirEntry, and the eleven of a name. -/
abbrev DirEntry := Fin 32 → UInt8
abbrev RawName := Fin 11 → UInt8

namespace DirEntry

def word (e : DirEntry) (i j : Fin 32) : Nat := (e i).toNat + 2^8 * (e j).toNat

def first (e : DirEntry) : UInt8 := e 0
def rawName (e : DirEntry) : RawName := fun k => e (k.castLE (by decide))
def attributes (e : DirEntry) : UInt8 := e 11
/-- `dir_entry_cluster`. -/
def cluster (e : DirEntry) : Nat := 2^16 * e.word 20 21 + e.word 26 27
def fileSize (e : DirEntry) : Nat := e.word 28 29 + 2^16 * e.word 30 31

def isEnd (e : DirEntry) : Bool := e.first == entryEnd
def isFree (e : DirEntry) : Bool := e.first == entryFree
def isDirectory (e : DirEntry) : Bool := e.attributes &&& attrDirectory != 0
/-- Neither a volume label nor part of a long name. -/
def isPlain (e : DirEntry) : Bool :=
  !(e.attributes &&& attrVolumeId != 0) && !(e.attributes &&& attrLfn == attrLfn)

end DirEntry

/-- The entry at index `e` of a sector, and the sector with another entry there. -/
def entryAt (buf : View) (e : Nat) : DirEntry := fun k => buf (32 * e + k)
def storeEntry (buf : View) (e : Nat) (entry : DirEntry) : View := fun i =>
  if h : 32 * e ≤ i ∧ i < 32 * e + 32 then entry ⟨i - 32 * e, by omega⟩ else buf i

/-- `(44 << 9) | (1 << 5) | 1`. -/
def today : Nat := 22561

/-- Bytes 20 to 31 of an entry: cluster, write time and date, size. -/
def entryTail (cluster size : Nat) : List UInt8 :=
  bytes16 (cluster / 2^16) ++ bytes16 0 ++ bytes16 today ++ bytes16 (cluster % 2^16) ++ bytes32 size

def newEntry (raw : RawName) (attributes : UInt8) (createDate cluster size : Nat) : DirEntry := fun k =>
  (List.ofFn raw ++ [attributes, 0, 0] ++ bytes16 0 ++ bytes16 createDate ++ bytes16 0 ++
    entryTail cluster size).getD k 0

/-- The entry that `fat32_write_file` puts back. -/
def DirEntry.rewrite (e : DirEntry) (cluster size : Nat) : DirEntry := fun k =>
  if k.val < 20 then e k else (entryTail cluster size).getD (k - 20) 0

def DirEntry.deleted (e : DirEntry) : DirEntry := Function.update e 0 entryFree

/-- `if (c >= 'a' && c <= 'z') c -= 32`. -/
def upper (c : UInt8) : UInt8 := if 97 ≤ c ∧ c ≤ 122 then c - 32 else c

/-- The index of the last dot. -/
def lastDot (name : List UInt8) : Option Nat :=
  (List.range name.length).reverse.find? fun i => name.getD i 0 == 46

/-- `encode_83_name`; the name is given without its final NUL. -/
def encode83Name (name : List UInt8) : RawName := fun k =>
  match lastDot name with
  | some dot =>
    if k.val < 8 then (if k.val < dot then upper (name.getD k 0) else 32)
    else if dot + 1 + (k - 8) < name.length then upper (name.getD (dot + 1 + (k - 8)) 0) else 32
  | none => if k.val < 8 ∧ k.val < name.length then upper (name.getD k 0) else 32

def RawName.base (raw : RawName) : List UInt8 := (List.ofFn raw).take 8
def RawName.ext (raw : RawName) : List UInt8 := (List.ofFn raw).drop 8

def format83Name (raw : RawName) : List UInt8 :=
  raw.base.takeWhile (· != 32) ++
    if raw.ext.any (· != 32) then 46 :: raw.ext.takeWhile (· != 32) else []

/-- What `dir_search_cb` looks for, and what it finds. -/
inductive SearchMode where
  | findFree
  | findMatch (target : RawName)

structure Found where
  lba : Nat
  idx : Nat
  result : DirEntry

def dirSearchCb (mode : SearchMode) (e : DirEntry) (lba idx : Nat) (ctx : Option Found) : Bool × Option Found :=
  match mode with
  | .findFree => if e.isFree || e.isEnd then (true, some ⟨lba, idx, fun _ => 0⟩) else (false, ctx)
  | .findMatch target =>
    if e.isEnd then (true, ctx)
    else if e.isFree then (false, ctx)
    else if !e.isPlain then (false, ctx)
    else if e.rawName = target then (true, some ⟨lba, idx, e⟩)
    else (false, ctx)

/-- An open file, as far as reading uses it, and an entry of a listing. -/
structure File where
  name : List UInt8
  fileSize : Nat
  cluster : Nat

inductive FsEntry where
  | file (f : File)
  | directory (name : List UInt8)

def enumCountCb (e : DirEntry) (_lba _idx count : Nat) : Bool × Nat :=
  if e.isEnd then (true, count)
  else if e.isFree || !e.isPlain then (false, count)
  else (false, count + 1)

def DirEntry.toFsEntry (e : DirEntry) : FsEntry :=
  if e.isDirectory then .directory (format83Name e.rawName)
  else .file ⟨format83Name e.rawName, e.fileSize, e.cluster⟩

def enumFillCb (e : DirEntry) (_lba _idx : Nat) (entries : List FsEntry) : Bool × List FsEntry :=
  if e.isEnd then (true, entries)
  else if e.isFree || !e.isPlain then (false, entries)
  else (false, entries ++ [e.toFsEntry])

namespace Volume
variable (vol : Volume)

def clusterSize : Nat := vol.bytesPerSector * vol.sectorsPerCluster

def clusterToLba (cluster : Nat) : Nat :=
  add32 vol.dataLba (mul32 (sub32 cluster 2) vol.sectorsPerCluster)

/-- The FAT sector of a cluster and the offset of its entry there. -/
def fatSector (cluster : Nat) : Nat := add32 vol.fatLba (mul32 cluster 4 / sectorSize)
def fatOffset (cluster : Nat) : Nat := mul32 cluster 4 % sectorSize

def nextCluster (d : Drive) (cluster : Nat) : Nat :=
  match d.read (vol.fatSector cluster) with
  | none => clusterBad
  | some buf => buf.load32 (fatOffset cluster) % 2^28

/-- A FAT sector with the entry at `o` changed; its top four bits stay. -/
def setFatEntry (buf : View) (o value : Nat) : View :=
  buf.store32 o (buf.load32 o / 2^28 * 2^28 + value % 2^28)

/-- `fat32_write_fat`; `false` is the result -1. -/
def writeFat (d : Drive) (cluster value : Nat) : Bool × Drive :=
  match d.read (vol.fatSector cluster) with
  | none => (false, d)
  | some tmp =>
    let tmp := setFatEntry tmp (fatOffset cluster) value
    match d.write (vol.fatSector cluster) tmp with
    | none => (false, d)
    | some d =>
      if 1 < vol.numFats then
        match d.write (add32 (vol.fatSector cluster) vol.sectorsPerFat) tmp with
        | none => (false, d)
        | some d => (true, d)
      else (true, d)

/-- `fat32_alloc_cluster` from FAT sector `s` on, with `n` sectors left. -/
def allocFrom (d : Drive) (s : Nat) : Nat → Nat × Drive
  | 0 => (0, d)
  | n+1 =>
    match d.read (add32 vol.fatLba s) with
    | none => (0, d)
    | some tmp =>
      let cluster e := add32 (mul32 s entriesPerSector) e
      match (List.range entriesPerSector).find? fun e =>
          2 ≤ cluster e && tmp.load32 (4 * e) % 2^28 == 0 with
      | none => allocFrom d (s+1) n
      | some e =>
        let tmp := setFatEntry tmp (4 * e) clusterEoc
        match d.write (add32 vol.fatLba s) tmp with
        | none => (0, d)
        | some d =>
          (cluster e, if 1 < vol.numFats then d.put (add32 (add32 vol.fatLba vol.sectorsPerFat) s) tmp else d)

def allocCluster (d : Drive) : Nat × Drive := vol.allocFrom d 0 vol.sectorsPerFat

/-- The buffer of one sector: `chunk` bytes of the content, then zeros. -/
def fillBuf (content : List UInt8) (srcOff chunk : Nat) : View := fun i =>
  if i < chunk then content.getD (srcOff + i) 0 else 0

/-- The sectors of a cluster from index `s` on, with `n` left; also gives what
remains of the content. -/
def fillSectors (content : List UInt8) (lba s : Nat) : Nat → Nat → Drive → Nat × Drive
  | 0, remaining, d => (remaining, d)
  | n+1, remaining, d =>
    let chunk := if sectorSize < remaining then sectorSize else remaining
    let tmp := fillBuf content (content.length - remaining) chunk
    fillSectors content lba (s+1) n (remaining - chunk) (d.put (add32 lba s) tmp)

/-- The loop of `fat32_write_cluster_chain` with `n` clusters to go. -/
def chainLoop (content : List UInt8) : Nat → Nat → Nat → Nat → Drive → Nat × Drive
  | 0, first, _, _, d => (first, d)
  | n+1, first, prev, remaining, d =>
    let (cl, d) := vol.allocCluster d
    if cl = 0 then (0, d)
    else
      let first := if first = 0 then cl else first
      let d := if prev ≠ 0 then (vol.writeFat d prev cl).2 else d
      let (remaining, d) := fillSectors content (vol.clusterToLba cl) 0 vol.sectorsPerCluster remaining d
      chainLoop content n first cl remaining d

def clustersNeeded (len : Nat) : Nat := if len = 0 then 1 else (len + vol.clusterSize - 1) / vol.clusterSize

def writeClusterChain (d : Drive) (content : List UInt8) : Nat × Drive :=
  vol.chainLoop content (vol.clustersNeeded content.length) 0 0 content.length d

def freeClusterChain (d : Drive) : Nat → Nat → Option Drive
  | 0, _ => none
  | fuel+1, cluster =>
    if 2 ≤ cluster ∧ cluster < clusterBad then
      freeClusterChain (vol.writeFat d cluster 0).2 fuel (vol.nextCluster d cluster)
    else some d

section iterate
variable {σ : Type} (cb : DirEntry → Nat → Nat → σ → Bool × σ)

/-- The two inner loops of `fat32_dir_iterate`: one cluster. A sector that cannot
be read ends the walk. -/
def iterateCluster (d : Drive) (lba : Nat) (ctx : σ) : Bool × σ :=
  scan (fun ctx s =>
    match d.read (add32 lba s) with
    | none => (true, ctx)
    | some buf => scan (fun ctx e => cb (entryAt buf e) (add32 lba s) e ctx) ctx (List.range slotsPerSector))
    ctx (List.range vol.sectorsPerCluster)

def dirIterate (d : Drive) : Nat → Nat → σ → Option σ
  | 0, _, _ => none
  | fuel+1, cluster, ctx =>
    if 2 ≤ cluster ∧ cluster < clusterBad then
      match vol.iterateCluster cb d (vol.clusterToLba cluster) ctx with
      | (true, ctx) => some ctx
      | (false, ctx) => dirIterate d fuel (vol.nextCluster d cluster) ctx
    else some ctx

end iterate

/-- The search that every operation on the root directory starts with. -/
def search (d : Drive) (mode : SearchMode) : Option (Option Found) :=
  vol.dirIterate (dirSearchCb mode) d chainFuel vol.rootCluster none

/-- The copying loop for one cluster: whether all reads worked, the offset
reached and the bytes so far. -/
def copyRun (d : Drive) (lba : Nat) : Nat → Nat → Nat → List UInt8 → Bool × Nat × List UInt8
  | 0, off, _, acc => (true, off, acc)
  | fuel+1, off, toCopy, acc =>
    if toCopy = 0 then (true, off, acc)
    else
      let chunk := if toCopy < sectorSize - off % sectorSize then toCopy else sectorSize - off % sectorSize
      match d.read (add32 lba (off / sectorSize)) with
      | none => (false, off, acc)
      | some buf =>
        copyRun d lba fuel (off + chunk) (toCopy - chunk) (acc ++ buf.bytes (off % sectorSize) chunk)

/-- The outer loop of `fat32_file_read`; `none` is the result -1. -/
def readLoop (d : Drive) (len : Nat) : Nat → Nat → Nat → List UInt8 → Option (List UInt8)
  | 0, _, _, acc => some acc
  | fuel+1, cluster, off, acc =>
    if len ≤ acc.length then some acc
    else if cluster < 2 ∨ clusterBad ≤ cluster then some acc
    else
      let bytesInCluster := int32 (vol.clusterSize - off)
      let toCopy := (len - acc.length) % 2^32
      let toCopy := if bytesInCluster < int32 toCopy then u32 bytesInCluster else toCopy
      match copyRun d (vol.clusterToLba cluster) (toCopy + 1) off toCopy acc with
      | (false, _, acc) => if acc.length = 0 then none else some acc
      | (true, off, acc) =>
        if vol.clusterSize ≤ off then readLoop d len fuel (vol.nextCluster d cluster) 0 acc
        else readLoop d len fuel cluster off acc

/-- The clusters before the one of the offset; `none` if the chain ends there. -/
def skipClusters (d : Drive) : Nat → Nat → Option Nat
  | 0, cluster => some cluster
  | n+1, cluster =>
    let next := vol.nextCluster d cluster
    if clusterBad ≤ next then none else skipClusters d n next

/-- `fat32_file_read`: the bytes read, `none` for the result -1. -/
def fileRead (d : Drive) (f : File) (offset len : Nat) : Option (List UInt8) :=
  if f.fileSize ≤ offset then some []
  else
    let len := if f.fileSize - offset < len then f.fileSize - offset else len
    match vol.skipClusters d (offset / vol.clusterSize % 2^32) f.cluster with
    | none => some []
    | some cluster => vol.readLoop d len (len + 1) cluster (offset % vol.clusterSize) []

/-- The loop of `fat32_file_write` for one cluster: whether all reads and writes
worked, and the number of bytes written so far. -/
def writeRun (lba : Nat) (buf : List UInt8) (len : Nat) : Nat → Nat → Nat → Drive → Option (Bool × Nat × Drive)
  | 0, _, _, _ => none
  | fuel+1, off, written, d =>
    if written < len ∧ off < vol.clusterSize then
      let chunk := (len - written) % 2^32
      let chunk := if sectorSize - off % sectorSize < chunk then sectorSize - off % sectorSize else chunk
      match d.read (add32 lba (off / sectorSize)) with
      | none => some (false, written, d)
      | some tmp =>
        match d.write (add32 lba (off / sectorSize))
            (tmp.splice (off % sectorSize) ((buf.drop written).take chunk)) with
        | none => some (false, written, d)
        | some d => writeRun lba buf len fuel (off + chunk) (written + chunk) d
    else some (true, written, d)

/-- The outer loop: each cluster but the first is written from its start. -/
def writeLoop (buf : List UInt8) (len : Nat) : Nat → Nat → Nat → Nat → Drive → Option (Nat × Drive)
  | 0, _, _, _, _ => none
  | fuel+1, cluster, off, written, d =>
    if len ≤ written then some (written, d)
    else if cluster < 2 ∨ clusterBad ≤ cluster then some (written, d)
    else
      match vol.writeRun (vol.clusterToLba cluster) buf len (len + 1) off written d with
      | none => none
      | some (false, written, d) => some (written, d)
      | some (true, written, d) =>
        writeLoop buf len fuel (if written < len then vol.nextCluster d cluster else cluster) 0 written d

/-- `fat32_file_write`: the number of bytes written. -/
def fileWrite (d : Drive) (f : File) (offset : Nat) (buf : List UInt8) : Option (Nat × Drive) :=
  if f.fileSize ≤ offset then some (0, d)
  else
    let len := if f.fileSize < add64 offset buf.length then f.fileSize - offset else buf.length
    match vol.skipClusters d (offset / vol.clusterSize % 2^32) f.cluster with
    | none => some (0, d)
    | some cluster => vol.writeLoop buf len (len + 1) cluster (offset % vol.clusterSize) 0 d

/-- Both passes over the root directory; `kmalloc` is taken to succeed. -/
def getRootEntries (d : Drive) : Option (List FsEntry) := do
  let count ← vol.dirIterate enumCountCb d chainFuel vol.rootCluster 0
  if count = 0 then return []
  vol.dirIterate enumFillCb d chainFuel vol.rootCluster []

end Volume

/-- `fat32_write_dir_entry`, with 0 or -1. -/
def Drive.writeDirEntry (d : Drive) (lba idx : Nat) (entry : DirEntry) : Int × Drive :=
  match d.read lba with
  | none => (-1, d)
  | some tmp =>
    match d.write lba (storeEntry tmp idx entry) with
    | none => (-1, d)
    | some d => (0, d)

namespace Volume
variable (vol : Volume)

def createFile (d : Drive) (name content : List UInt8) : Option (Int × Drive) :=
  match vol.search d .findFree with
  | none => none
  | some none => some (-1, d)
  | some (some ctx) =>
    let (first, d) := vol.writeClusterChain d content
    if first = 0 ∧ 0 < content.length then some (-1, d)
    else
      some (d.writeDirEntry ctx.lba ctx.idx
        (newEntry (encode83Name name) attrArchive today first (content.length % 2^32)))

def writeFile (d : Drive) (name content : List UInt8) : Option (Int × Drive) :=
  match vol.search d (.findMatch (encode83Name name)) with
  | none => none
  | some none => vol.createFile d name content
  | some (some ctx) =>
    match vol.freeClusterChain d chainFuel ctx.result.cluster with
    | none => none
    | some d =>
      let (first, d) := vol.writeClusterChain d content
      if first = 0 ∧ 0 < content.length then some (-1, d)
      else some (d.writeDirEntry ctx.lba ctx.idx (ctx.result.rewrite first (content.length % 2^32)))

def deleteFile (d : Drive) (name : List UInt8) : Option (Int × Drive) :=
  match vol.search d (.findMatch (encode83Name name)) with
  | none => none
  | some none => some (-1, d)
  | some (some ctx) =>
    match vol.freeClusterChain d chainFuel ctx.result.cluster with
    | none => none
    | some d => some (d.writeDirEntry ctx.lba ctx.idx ctx.result.deleted)

/-- The comparison of a listed name with the argument of `fat32_append_file`. -/
def sameName : List UInt8 → List UInt8 → Bool
  | a :: as, b :: bs => upper a == upper b && sameName as bs
  | [], [] => true
  | _, _ => false

def findListed (name : List UInt8) (entries : List FsEntry) : Option File :=
  entries.findSome? fun e =>
    match e with
    | .file f => if sameName (f.name.takeWhile (· != 0)) name then some f else none
    | .directory _ => none

/-- The old content, in reads of 128 bytes and at most 4000 in all. -/
def readOld (d : Drive) (f : File) : Nat → Nat → List UInt8 → List UInt8
  | 0, _, acc => acc
  | fuel+1, j, acc =>
    if acc.length < 4000 then
      match vol.fileRead d f (j * 128) 128 with
      | none => acc
      | some [] => acc
      | some chunk => readOld d f fuel (j+1) (acc ++ chunk.take (4000 - acc.length))
    else acc

/-- What `fat32_append_file` collects in its buffer of 4096 bytes. -/
def appendBuf (old content : List UInt8) : List UInt8 := old ++ content.take (4095 - old.length)

def appendFile (d : Drive) (name content : List UInt8) : Option (Int × Drive) := do
  let entries ← vol.getRootEntries d
  match findListed name entries with
  | none => vol.createFile d name (appendBuf [] content)
  | some f =>
    let old := vol.readOld d f 4000 0 []
    let r ← vol.deleteFile d name
    vol.createFile r.2 name (appendBuf old content)

def mkdir (d : Drive) (name : List UInt8) : Option (Int × Drive) :=
  match vol.search d .findFree with
  | none => none
  | some none => some (-1, d)
  | some (some ctx) => some (d.writeDirEntry ctx.lba ctx.idx (newEntry (encode83Name name) attrDirectory 0 0 0))

end Volume
end GeckoOS.Fs.Fat32
