import GeckoOS.Lib.Bytes
import GeckoOS.Lib.CInt
import GeckoOS.Lib.Programs

/-! `elf_load_stage1` and `elf_load_stage2` of elf.c, as `cmd_runelf` calls them for the
bytes of a file. Addresses are relative to the first of these bytes, modulo 2^64. -/
namespace GeckoOS.Elf
open Lib

def shtNobits : Nat := 8
def shtRel : Nat := 9
def shfAlloc : Nat := 2
def shnUndef : Nat := 0
def shnAbs : Nat := 0xfff1

def sizeofShdr : Nat := 64
def sizeofRel : Nat := 16
def sizeofSym : Nat := 24

/-- Memory from an address on. -/
def window (m : View) (a : Nat) : View := fun i => m (add64 a i)

def eShoff (m : View) : Nat := m.load64 40
def eShnum (m : View) : Nat := m.load16 60

def shType (m : View) (a : Nat) : Nat := (window m a).load32 4
def shFlags (m : View) (a : Nat) : Nat := (window m a).load64 8
def shOffset (m : View) (a : Nat) : Nat := (window m a).load64 24
def shSize (m : View) (a : Nat) : Nat := (window m a).load64 32
def shLink (m : View) (a : Nat) : Nat := (window m a).load32 40
def shEntsize (m : View) (a : Nat) : Nat := (window m a).load64 56

/-- `section->sh_size / section->sh_entsize`. -/
def shCount (m : View) (a : Nat) : Nat := shSize m a / shEntsize m a

/-- `section->sh_offset = v`. -/
def setOffset (m : View) (a v : Nat) : View := fun b =>
  if sub64 b (add64 a 24) < 8 then .ofNat (v / 2^(8 * sub64 b (add64 a 24))) else m b

/-- `&elf_sheader(hdr)[idx]`. -/
def elfSection (m : View) (idx : Int) : Nat := add64 (eShoff m) (u64 (sizeofShdr * idx))

def elf64RSym (info : Nat) : Nat := info / 2^32

/-- The buffer with the bytes of the file. The end of it is an address, too. -/
structure File where
  hdr : Nat
  size : Nat
  fits : hdr + size < 2^64

/-- Something that is read as a whole: a section header, a relocation or a symbol. -/
structure Object where
  address : Nat
  size : Nat
  deriving DecidableEq

def File.Holds (f : File) (o : Object) : Prop := o.address + o.size ≤ f.size

instance File.decidableHolds (f : File) (o : Object) : Decidable (f.Holds o) :=
  inferInstanceAs (Decidable (_ ≤ _))

/-- The memory and all that has been read from it so far. -/
structure State where
  memory : View
  reads : List Object

def State.read (s : State) (os : List Object) : State := { s with reads := s.reads ++ os }

/-- Why the command does not come to its end: a division by zero, a `memset` that the kernel
does not get over, the `for (;;)` for external symbols, or more passes than were allowed for. -/
inductive Stop
  | divideError
  | memset
  | external
  | fuel
  deriving DecidableEq

/-- What comes of `kmalloc` and `memset` for a section, by its number: the pointer, with the
memory around the file afterwards, or `none` where `memset` takes the kernel down. -/
abbrev Answers := Nat → Option (Nat × View)

variable (f : File) (answers : Answers)

/-- The memory with the file's own bytes as they were. -/
def File.keep (m outside : View) : View := fun b => if b < f.size then m b else outside b

/-- A section asks for memory. -/
def Asks (m : View) (a : Nat) : Prop := shType m a = shtNobits ∧ shSize m a ≠ 0 ∧ shFlags m a &&& shfAlloc ≠ 0

instance decidableAsks (m : View) (a : Nat) : Decidable (Asks m a) := inferInstanceAs (Decidable (_ ∧ _))

def stage1Pass (shdr i : Nat) (s : State) : Except Stop State :=
  let section' := add64 shdr (sizeofShdr * i)
  let s := s.read [⟨section', sizeofShdr⟩]
  if Asks s.memory section' then
    (answers i).elim (throw .memset) fun m =>
      pure { s with memory := setOffset (f.keep s.memory m.2) section' (sub64 m.1 f.hdr) }
  else pure s

/-- The number of a pass stays below the 16 bits of `e_shnum`. -/
def stage1Loop (shdr : Nat) : Nat → Nat → State → Except Stop State
  | 0, _, _ => throw .fuel
  | fuel + 1, i, s =>
    if i < eShnum s.memory then do
      let s ← stage1Pass f answers shdr i s
      stage1Loop shdr fuel (i + 1) s
    else pure s

def elfLoadStage1 (fuel : Nat) (s : State) : Except Stop State :=
  stage1Loop f answers (eShoff s.memory) fuel 0 s

def elfGetSymval (table : Int) (idx : Nat) (s : State) : Except Stop (Nat × State) :=
  if table = shnUndef ∨ idx = shnUndef then pure (0, s)
  else
    let symtab := elfSection s.memory table
    let s := s.read [⟨symtab, sizeofShdr⟩]
    if shEntsize s.memory symtab = 0 then throw .divideError
    else if shCount s.memory symtab % 2^32 ≤ idx then pure (2^64 - 1, s)
    else
      -- the address goes through an `int`
      let symaddr := sub64 (u64 (int32 (add64 f.hdr (shOffset s.memory symtab)))) f.hdr
      let symbol := add64 symaddr (sizeofSym * idx)
      let s := s.read [⟨symbol, sizeofSym⟩]
      let stShndx := (window s.memory symbol).load16 6
      let stValue := (window s.memory symbol).load64 8
      -- the name is printed, and then nothing more happens
      if stShndx = shnUndef then throw .external
      else if stShndx = shnAbs then pure (stValue, s)
      else
        let target := elfSection s.memory stShndx
        let s := s.read [⟨target, sizeofShdr⟩]
        pure (add64 (add64 f.hdr stValue) (shOffset s.memory target), s)

/-- Whether a symbol is looked up depends on `symval`, which is 0 there. Of the target
section only the address is computed. -/
def elfDoReloc (rel reltab : Nat) (s : State) : Except Stop (Int × State) :=
  let s := s.read [⟨rel, sizeofRel⟩]
  if elf64RSym 0 ≠ shnUndef then do
    let r ← elfGetSymval f (int32 (shLink s.memory reltab)) (elf64RSym ((window s.memory rel).load64 8)) s
    pure (int32 r.1, r.2)
  else pure (0, s)

def relocLoop (section' : Nat) : Nat → Nat → State → Except Stop (Int × State)
  | 0, _, _ => throw .fuel
  | fuel + 1, idx, s =>
    if shEntsize s.memory section' = 0 then throw .divideError
    else if idx < shCount s.memory section' then do
      let r ← elfDoReloc f (add64 (shOffset s.memory section') (sizeofRel * idx)) section' s
      if r.1 = -1 then pure (-1, r.2) else relocLoop section' fuel (add32 idx 1) r.2
    else pure (0, s)

def stage2Pass (fuel section' : Nat) (s : State) : Except Stop (Int × State) :=
  let s := s.read [⟨section', sizeofShdr⟩]
  if shType s.memory section' = shtRel then relocLoop f section' fuel 0 s else pure (0, s)

/-- The first number bounds the relocations of a section, the second one the sections. -/
def stage2Loop (shdr n : Nat) : Nat → Nat → State → Except Stop (Int × State)
  | 0, _, _ => throw .fuel
  | fuel + 1, i, s =>
    if i < eShnum s.memory then do
      let r ← stage2Pass f n (add64 shdr (sizeofShdr * i)) s
      if r.1 = -1 then pure (-1, r.2) else stage2Loop shdr n fuel (i + 1) r.2
    else pure (0, s)

def elfLoadStage2 (fuel : Nat) (s : State) : Except Stop (Int × State) :=
  stage2Loop f (eShoff s.memory) fuel fuel 0 s

/-- The two calls, for a file that is in memory. Their results are not looked at. -/
def cmdRunelf (fuel : Nat) (m : View) : Except Stop State := do
  let s ← elfLoadStage1 f answers fuel ⟨m, []⟩
  let r ← elfLoadStage2 f fuel s
  pure r.2

/-- The command comes to its end, and whatever it reads lies inside the file. -/
def Safe (m : View) : Prop := ∃ fuel s, cmdRunelf f answers fuel m = .ok s ∧ ∀ o ∈ s.reads, f.Holds o

/-! What the loops read, and when they end. -/

/-- The relocations of a section, from one on. -/
def relocsFrom (m : View) (a idx : Nat) : List Object :=
  (List.range' idx (shCount m a - idx)).map fun k => ⟨add64 (shOffset m a) (sizeofRel * k), sizeofRel⟩

/-- The loop over the relocations divides and comes to its end. -/
def Ends (m : View) (a : Nat) : Prop := shEntsize m a ≠ 0 ∧ shCount m a < 2^32

def stage2Reads (m : View) (a : Nat) : List Object :=
  ⟨a, sizeofShdr⟩ :: if shType m a = shtRel then relocsFrom m a 0 else []

/-- The memory after the pass for a section. -/
def fill (shdr : Nat) (m : View) (i : Nat) : View :=
  if Asks m (add64 shdr (sizeofShdr * i)) then
    (answers i).elim m fun r => setOffset (f.keep m r.2) (add64 shdr (sizeofShdr * i)) (sub64 r.1 f.hdr)
  else m

/-- The memory after the passes for `k` sections, the first of them section `i`. -/
def fillFrom (shdr : Nat) (m : View) (i k : Nat) : View := (List.range' i k).foldl (fill f answers shdr) m

variable {f answers} {m : View} {a idx fuel i n shdr : Nat} {s s' : State} {x : Int × State}

@[simp] theorem State.read_memory (s : State) (os : List Object) : (s.read os).memory = s.memory := rfl
@[simp] theorem State.read_reads (s : State) (os : List Object) : (s.read os).reads = s.reads ++ os := rfl
@[simp] theorem State.read_nil (s : State) : s.read [] = s := by rw [State.read, List.append_nil]
@[simp] theorem State.read_read (s : State) (os os' : List Object) :
    (s.read os).read os' = s.read (os ++ os') := by
  simp only [State.read, List.append_assoc]

private theorem ok_eq_ok_iff {α : Type} {a b : α} : (pure a : Except Stop α) = .ok b ↔ b = a := by
  constructor
  · intro h
    cases h
    rfl
  · intro h
    rw [h]
    rfl

private theorem throw_ne_ok {α : Type} {e : Stop} {a : α} : (throw e : Except Stop α) ≠ .ok a := by
  intro h
  cases h

/-- No symbol is looked up. -/
theorem elfDoReloc_eq (f : File) (rel reltab : Nat) (s : State) :
    elfDoReloc f rel reltab s = .ok (0, s.read [⟨rel, sizeofRel⟩]) := by
  rw [elfDoReloc, if_neg (by decide)]
  rfl

theorem relocsFrom_of_lt (h : idx < shCount m a) :
    relocsFrom m a idx = ⟨add64 (shOffset m a) (sizeofRel * idx), sizeofRel⟩ :: relocsFrom m a (idx + 1) := by
  have hcount : shCount m a - idx = (shCount m a - (idx + 1)) + 1 := by omega
  rw [relocsFrom, hcount, List.range'_succ, List.map_cons, relocsFrom]

theorem relocsFrom_of_le (h : shCount m a ≤ idx) : relocsFrom m a idx = [] := by
  rw [relocsFrom, Nat.sub_eq_zero_of_le h, List.range'_zero, List.map_nil]

/-- From 2^32 relocations on the index comes round to 0. -/
theorem relocLoop_eq_ok_iff (hidx : idx < 2^32) (h : idx ≤ shCount s.memory a) :
    relocLoop f a fuel idx s = .ok x ↔
    (Ends s.memory a ∧ shCount s.memory a - idx < fuel) ∧ x = (0, s.read (relocsFrom s.memory a idx)) := by
  induction fuel generalizing idx s with
  | zero => exact iff_of_false throw_ne_ok fun hend => Nat.not_lt_zero _ hend.1.2
  | succ fuel ih =>
    rw [relocLoop]
    by_cases hzero : shEntsize s.memory a = 0
    · rw [if_pos hzero]
      exact iff_of_false throw_ne_ok fun hend => hend.1.1.1 hzero
    · rw [if_neg hzero]
      by_cases hgo : idx < shCount s.memory a
      · rw [if_pos hgo, elfDoReloc_eq, relocsFrom_of_lt hgo]
        have hnext : add32 idx 1 < 2^32 ∧ add32 idx 1 ≤ shCount s.memory a := by
          unfold add32
          omega
        show relocLoop f a fuel (add32 idx 1) (s.read _) = .ok x ↔ _
        rw [ih (s := s.read _) hnext.1 hnext.2, State.read_read, State.read_memory]
        by_cases hbound : shCount s.memory a < 2^32
        · have hsucc : add32 idx 1 = idx + 1 := add32_eq (by omega)
          have hfuel : shCount s.memory a - (idx + 1) < fuel ↔ shCount s.memory a - idx < fuel + 1 := by omega
          rw [hsucc, hfuel, List.singleton_append]
        · exact ⟨fun hend => absurd hend.1.1.2 hbound, fun hend => absurd hend.1.1.2 hbound⟩
      · have hlast : shCount s.memory a ≤ idx := Nat.le_of_not_lt hgo
        have hends : Ends s.memory a ∧ shCount s.memory a - idx < fuel + 1 := ⟨⟨hzero, by omega⟩, by omega⟩
        rw [if_neg hgo, relocsFrom_of_le hlast, State.read_nil, and_iff_right hends]
        exact ok_eq_ok_iff

theorem stage2Pass_eq_ok_iff : stage2Pass f n a s = .ok x ↔
    (shType s.memory a = shtRel → Ends s.memory a ∧ shCount s.memory a < n) ∧
      x = (0, s.read (stage2Reads s.memory a)) := by
  rw [stage2Pass, stage2Reads]
  by_cases hrel : shType s.memory a = shtRel
  · rw [if_pos hrel, if_pos (by exact hrel)]
    rw [relocLoop_eq_ok_iff (by decide) (Nat.zero_le _), State.read_read, State.read_memory, Nat.sub_zero,
      List.singleton_append, forall_prop_of_true hrel]
  · rw [if_neg hrel, if_neg (by exact hrel), ok_eq_ok_iff]
    exact (and_iff_right fun h => absurd h hrel).symm

/-- The headers and the relocations that the second stage reads from a section on. -/
def stage2ReadsFrom (m : View) (shdr i : Nat) : List Object :=
  (List.range' i (eShnum m - i)).flatMap fun j => stage2Reads m (add64 shdr (sizeofShdr * j))

theorem stage2ReadsFrom_of_lt (h : i < eShnum m) : stage2ReadsFrom m shdr i =
    stage2Reads m (add64 shdr (sizeofShdr * i)) ++ stage2ReadsFrom m shdr (i + 1) := by
  have hcount : eShnum m - i = (eShnum m - (i + 1)) + 1 := by omega
  rw [stage2ReadsFrom, hcount, List.range'_succ, List.flatMap_cons, stage2ReadsFrom]

theorem stage2ReadsFrom_of_le (h : eShnum m ≤ i) : stage2ReadsFrom m shdr i = [] := by
  rw [stage2ReadsFrom, Nat.sub_eq_zero_of_le h, List.range'_zero, List.flatMap_nil]

theorem stage2Loop_eq_ok_iff : stage2Loop f shdr n fuel i s = .ok x ↔
    ((∀ j, i ≤ j → j < eShnum s.memory → shType s.memory (add64 shdr (sizeofShdr * j)) = shtRel →
        Ends s.memory (add64 shdr (sizeofShdr * j)) ∧ shCount s.memory (add64 shdr (sizeofShdr * j)) < n) ∧
      eShnum s.memory - i < fuel) ∧ x = (0, s.read (stage2ReadsFrom s.memory shdr i)) := by
  induction fuel generalizing i s with
  | zero => exact iff_of_false throw_ne_ok fun hend => Nat.not_lt_zero _ hend.1.2
  | succ fuel ih =>
    rw [stage2Loop]
    by_cases hgo : i < eShnum s.memory
    · have hfuel : eShnum s.memory - i < fuel + 1 ↔ eShnum s.memory - (i + 1) < fuel := by omega
      rw [if_pos hgo, except_bind_eq_ok, stage2ReadsFrom_of_lt hgo, hfuel]
      simp only [stage2Pass_eq_ok_iff]
      constructor
      · rintro ⟨r, ⟨hpass, rfl⟩, hrest⟩
        rw [if_neg (by exact (by decide : ¬ (0 : Int) = -1)), ih, State.read_memory, State.read_read] at hrest
        obtain ⟨⟨hends, hlt⟩, hx⟩ := hrest
        refine ⟨⟨fun j hi hj hrel => ?_, hlt⟩, hx⟩
        rcases Nat.eq_or_lt_of_le hi with rfl | hi
        · exact hpass hrel
        · exact hends j hi hj hrel
      · rintro ⟨⟨hends, hlt⟩, hx⟩
        refine ⟨_, ⟨fun hrel => hends i (Nat.le_refl i) hgo hrel, rfl⟩, ?_⟩
        rw [if_neg (by exact (by decide : ¬ (0 : Int) = -1)), ih, State.read_memory, State.read_read]
        exact ⟨⟨fun j hi => hends j (Nat.le_of_succ_le hi), hlt⟩, hx⟩
    · have hlast : eShnum s.memory ≤ i := Nat.le_of_not_lt hgo
      rw [if_neg hgo, stage2ReadsFrom_of_le hlast, State.read_nil, ok_eq_ok_iff]
      refine (and_iff_right ⟨fun j hi hj => ?_, by omega⟩).symm
      omega

theorem stage1Pass_eq_ok_iff : stage1Pass f answers shdr i s = .ok s' ↔
    (Asks s.memory (add64 shdr (sizeofShdr * i)) → (answers i).isSome) ∧
      s' = ⟨fill f answers shdr s.memory i, s.reads ++ [⟨add64 shdr (sizeofShdr * i), sizeofShdr⟩]⟩ := by
  rw [stage1Pass, fill]
  by_cases hasks : Asks s.memory (add64 shdr (sizeofShdr * i))
  · rw [if_pos hasks, if_pos (by exact hasks), forall_prop_of_true hasks]
    cases hanswer : answers i with
    | none => exact iff_of_false throw_ne_ok fun h => absurd h.1 (by decide)
    | some r => exact ok_eq_ok_iff.trans (and_iff_right rfl).symm
  · rw [if_neg hasks, if_neg (by exact hasks), ok_eq_ok_iff]
    exact (and_iff_right fun h => absurd h hasks).symm

/-- The first stage makes a pass for each of the `k` sections from `i` on. -/
structure Passes (f : File) (answers : Answers) (shdr : Nat) (m : View) (i k : Nat) : Prop where
  go : ∀ j < k, i + j < eShnum (fillFrom f answers shdr m i j)
  stop : eShnum (fillFrom f answers shdr m i k) ≤ i + k
  granted : ∀ j < k, Asks (fillFrom f answers shdr m i j) (add64 shdr (sizeofShdr * (i + j))) →
  (answers (i + j)).isSome

def headersFrom (shdr i k : Nat) : List Object :=
  (List.range' i k).map fun j => ⟨add64 shdr (sizeofShdr * j), sizeofShdr⟩

theorem fillFrom_succ (f : File) (answers : Answers) (shdr : Nat) (m : View) (i k : Nat) :
    fillFrom f answers shdr m i (k + 1) = fillFrom f answers shdr (fill f answers shdr m i) (i + 1) k := by
  rw [fillFrom, List.range'_succ, List.foldl_cons, fillFrom]

theorem passes_succ {k : Nat} : Passes f answers shdr m i (k + 1) ↔
    (i < eShnum m ∧ (Asks m (add64 shdr (sizeofShdr * i)) → (answers i).isSome)) ∧
      Passes f answers shdr (fill f answers shdr m i) (i + 1) k := by
  have hstep : ∀ j, i + (j + 1) = i + 1 + j := fun j => by omega
  constructor
  · intro h
    refine ⟨⟨h.go 0 (Nat.succ_pos k), h.granted 0 (Nat.succ_pos k)⟩, fun j hj => ?_, ?_, fun j hj => ?_⟩
    · rw [← fillFrom_succ, ← hstep]
      exact h.go (j + 1) (Nat.succ_lt_succ hj)
    · rw [← fillFrom_succ, ← hstep]
      exact h.stop
    · rw [← fillFrom_succ, ← hstep]
      exact h.granted (j + 1) (Nat.succ_lt_succ hj)
  · rintro ⟨⟨hgo, hgranted⟩, h⟩
    refine ⟨fun j hj => ?_, ?_, fun j hj => ?_⟩
    · cases j with
      | zero => exact hgo
      | succ j =>
        rw [fillFrom_succ, hstep j]
        exact h.go j (Nat.lt_of_succ_lt_succ hj)
    · rw [fillFrom_succ, hstep k]
      exact h.stop
    · cases j with
      | zero => exact hgranted
      | succ j =>
        rw [fillFrom_succ, hstep j]
        exact h.granted j (Nat.lt_of_succ_lt_succ hj)

theorem stage1Loop_eq_ok_iff : stage1Loop f answers shdr fuel i s = .ok s' ↔
    ∃ k < fuel, Passes f answers shdr s.memory i k ∧
      s' = ⟨fillFrom f answers shdr s.memory i k, s.reads ++ headersFrom shdr i k⟩ := by
  induction fuel generalizing i s with
  | zero => exact iff_of_false throw_ne_ok fun ⟨k, hk, _⟩ => Nat.not_lt_zero k hk
  | succ fuel ih =>
    rw [stage1Loop]
    by_cases hgo : i < eShnum s.memory
    · rw [if_pos hgo, except_bind_eq_ok]
      simp only [stage1Pass_eq_ok_iff]
      constructor
      · rintro ⟨t, ⟨hgranted, rfl⟩, hrest⟩
        obtain ⟨k, hk, hpasses, rfl⟩ := ih.mp hrest
        refine ⟨k + 1, Nat.succ_lt_succ hk, passes_succ.mpr ⟨⟨hgo, hgranted⟩, hpasses⟩, ?_⟩
        rw [fillFrom_succ, headersFrom, headersFrom, List.range'_succ, List.map_cons, List.append_assoc,
          List.singleton_append]
      · rintro ⟨k, hk, hpasses, rfl⟩
        cases k with
        | zero => exact absurd hpasses.stop (Nat.not_le.mpr hgo)
        | succ k =>
          obtain ⟨⟨-, hgranted⟩, hrest⟩ := passes_succ.mp hpasses
          refine ⟨_, ⟨hgranted, rfl⟩, ih.mpr ⟨k, Nat.lt_of_succ_lt_succ hk, hrest, ?_⟩⟩
          rw [fillFrom_succ, headersFrom, headersFrom, List.range'_succ, List.map_cons, List.append_assoc,
            List.singleton_append]
    · rw [if_neg hgo, ok_eq_ok_iff]
      constructor
      · rintro rfl
        have hnone : ∀ j, ¬ j < 0 := Nat.not_lt_zero
        refine ⟨0, Nat.succ_pos fuel,
          ⟨fun j hj => (hnone j hj).elim, Nat.le_of_not_lt hgo, fun j hj => (hnone j hj).elim⟩, ?_⟩
        rw [headersFrom, List.range'_zero, List.map_nil, List.append_nil]
        rfl
      · rintro ⟨k, -, hpasses, rfl⟩
        cases k with
        | zero =>
          rw [headersFrom, List.range'_zero, List.map_nil, List.append_nil]
          rfl
        | succ k => exact absurd (hpasses.go 0 (Nat.succ_pos k)) hgo

end GeckoOS.Elf
