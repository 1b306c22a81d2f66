import GeckoOS.Lib.Runs
import Mathlib.Tactic.Common

/-! The hand-over of scancodes in ps2keyboard.c, statement by statement: the
interrupt leaves a code in one cell with a flag, and `ps2_kb_wfi` takes it from there. -/
namespace GeckoOS.Drivers.Keyboard
open Lib

def leftShiftSc : UInt8 := 0x2A
def rightShiftSc : UInt8 := 0x36
def capsLockSc : UInt8 := 0x3A

/-- The code in front of those of the extended keys. -/
def extendedSc : UInt8 := 0xE0

/-- The keys of KeyState that `process_keypress` sets. -/
structure KeyState where
  shiftL : Bool
  shiftR : Bool
  capsLock : Bool
  deriving DecidableEq

def processKeypress (k : KeyState) (sc : UInt8) : KeyState :=
  let released := sc &&& 0x80 != 0
  let sc := sc &&& 0x7F
  if sc = leftShiftSc then { k with shiftL := !released }
  else if sc = rightShiftSc then { k with shiftR := !released }
  else if sc = capsLockSc then (if !released then { k with capsLock := !k.capsLock } else k)
  else k

/-- What `ps2_kb_wfi` makes of the second byte of an extended key. -/
def extendedKey (ext : UInt8) : UInt8 :=
  if ext &&& 0x80 != 0 then 0
  else if ext = 0x48 then 0x60
  else if ext = 0x50 then 0x61
  else if ext = 0x4B then 0x62
  else if ext = 0x4D then 0x63
  else 0

/-- The statement of `ps2_kb_wfi` that comes next. -/
inductive Pc where
  | test | clear | read | extended
  deriving DecidableEq

structure State where
  kbReady : Bool
  lastScancode : UInt8
  keystate : KeyState
  pc : Pc
  deriving DecidableEq

/-- An interrupt with a code, or a statement of the consumer with the code that it
returns; the second byte of an extended key comes from the port. -/
inductive Event where
  | interrupt (scancode : UInt8)
  | statement (result : Option UInt8)
  | port (ext : UInt8)

/-- `keyboard_handler`. -/
def State.interrupted (s : State) (scancode : UInt8) : State :=
  { s with lastScancode := scancode, kbReady := true }

inductive Step : State → Event → State → Prop
  | interrupt {s : State} {scancode : UInt8} : Step s (.interrupt scancode) (s.interrupted scancode)
  -- `hlt` until the flag is set
  | wait {s : State} (hpc : s.pc = .test) (h : s.kbReady = false) : Step s (.statement none) s
  | test {s : State} (hpc : s.pc = .test) (h : s.kbReady = true) : Step s (.statement none)
      { s with pc := .clear }
  | clear {s : State} (hpc : s.pc = .clear) : Step s (.statement none) { s with kbReady := false, pc := .read }
  | read {s : State} (hpc : s.pc = .read) (h : s.lastScancode ≠ extendedSc) :
      Step s (.statement (some s.lastScancode))
        { s with keystate := processKeypress s.keystate s.lastScancode, pc := .test }
  | readExtended {s : State} (hpc : s.pc = .read) (h : s.lastScancode = extendedSc) :
      Step s (.statement none) { s with pc := .extended }
  | extended {s : State} {ext : UInt8} (hpc : s.pc = .extended) : Step s (.port ext) { s with pc := .test }

/-- The state that `ps2_kb_init` leaves. -/
def State.init (scancode : UInt8) : State := ⟨false, scancode, ⟨false, false, false⟩, .test⟩

/-- The codes that came, and those that `ps2_kb_wfi` returned. -/
def deliveredIn : List Event → List UInt8 := List.filterMap fun
  | .interrupt scancode => some scancode
  | _ => none

def returnedIn : List Event → List UInt8 := List.filterMap fun
  | .statement result => result
  | .port ext => some (extendedKey ext)
  | .interrupt _ => none

/-- Nothing is under way. -/
def State.CaughtUp (s : State) : Prop := s.kbReady = false ∧ s.pc = .test

/-- The cell is free for this code: the flag is clear, and a code that the consumer
is about to read is the same one. -/
def State.Free (s : State) (scancode : UInt8) : Prop :=
  s.kbReady = false ∧ (s.pc = .read → scancode = s.lastScancode)

/-- An interrupt of a plain key into a free cell, or any step of the consumer. -/
def CarefulStep (s : State) (event : Event) (s' : State) : Prop :=
  Step s event s' ∧ ∀ scancode, event = .interrupt scancode → scancode ≠ extendedSc ∧ s.Free scancode

/-- The codes that the consumer will still return. -/
def State.underWay (s : State) : List UInt8 :=
  (if s.pc = .read then [s.lastScancode] else []) ++ if s.kbReady then [s.lastScancode] else []

/-- No extended key in the cell, and the flag is set in front of the statement that clears it. -/
structure Plain (s : State) : Prop where
  pc : s.pc ≠ .extended
  code : s.kbReady = true ∨ s.pc = .read → s.lastScancode ≠ extendedSc
  ready : s.pc = .clear → s.kbReady = true

variable {s s' : State} {event : Event} {events : List Event}

theorem plain_init (scancode : UInt8) : Plain (.init scancode) := by
  constructor <;> simp [State.init]

theorem Plain.step (h : Plain s) (hstep : CarefulStep s event s') :
    Plain s' ∧ s.underWay ++ deliveredIn [event] = returnedIn [event] ++ s'.underWay ∧
      s'.keystate = (returnedIn [event]).foldl processKeypress s.keystate := by
  obtain ⟨hstep, hcareful⟩ := hstep
  cases hstep with
  | @interrupt scancode =>
    obtain ⟨hplain, hready, hsame⟩ := hcareful scancode rfl
    refine ⟨⟨h.pc, fun _ => hplain, fun _ => rfl⟩, ?_, rfl⟩
    by_cases hpc : s.pc = .read
    · simp [State.underWay, State.interrupted, hready, hpc, hsame hpc, deliveredIn, returnedIn]
    · simp [State.underWay, State.interrupted, hready, hpc, deliveredIn, returnedIn]
  | wait hpc hready => exact ⟨h, List.append_nil _, rfl⟩
  | test hpc hready =>
    refine ⟨⟨by simp, fun _ => h.code (.inl hready), fun _ => hready⟩, ?_, rfl⟩
    simp [State.underWay, hpc, hready, deliveredIn, returnedIn]
  | clear hpc =>
    have hready := h.ready hpc
    refine ⟨⟨by simp, fun _ => h.code (.inl hready), by simp⟩, ?_, rfl⟩
    simp [State.underWay, hpc, hready, deliveredIn, returnedIn]
  | read hpc hplain =>
    refine ⟨⟨by simp, fun _ => h.code (.inr hpc), by simp⟩, ?_, rfl⟩
    simp [State.underWay, hpc, deliveredIn, returnedIn]
  | readExtended hpc hext => exact absurd hext (h.code (.inr hpc))
  | extended hpc => exact absurd hpc h.pc

theorem Plain.run (h : Plain s) (hrun : Run CarefulStep s events s') :
    s.underWay ++ deliveredIn events = returnedIn events ++ s'.underWay ∧
      s'.keystate = (returnedIn events).foldl processKeypress s.keystate := by
  induction hrun with
  | nil s => exact ⟨List.append_nil _, rfl⟩
  | @cons s t u event events hstep _ ih =>
    obtain ⟨ht, heq, hkeys⟩ := h.step hstep
    obtain ⟨heq', hkeys'⟩ := ih ht
    have hd : deliveredIn (event :: events) = deliveredIn [event] ++ deliveredIn events :=
      List.filterMap_append (l := [event])
    have hr : returnedIn (event :: events) = returnedIn [event] ++ returnedIn events :=
      List.filterMap_append (l := [event])
    rw [hd, hr, ← List.append_assoc, heq, List.append_assoc, heq', List.append_assoc, List.foldl_append,
      hkeys', hkeys]
    exact ⟨rfl, rfl⟩

theorem State.CaughtUp.underWay (h : s.CaughtUp) : s.underWay = [] := by
  rw [State.underWay, h.1, h.2]
  rfl

/-- If each code comes into a free cell, the codes are returned in order, each
once, and all of them when the consumer has caught up. -/
theorem keys_in_order (scancode : UInt8) (events : List Event) (s : State)
    (hrun : Run CarefulStep (.init scancode) events s) :
    returnedIn events <+: deliveredIn events ∧
    (s.CaughtUp → returnedIn events = deliveredIn events ∧
      s.keystate = (deliveredIn events).foldl processKeypress ⟨false, false, false⟩) := by
  obtain ⟨heq, hkeys⟩ := (plain_init scancode).run hrun
  have heq : deliveredIn events = returnedIn events ++ s.underWay := heq
  refine ⟨⟨s.underWay, heq.symm⟩, fun hup => ?_⟩
  rw [hup.underWay, List.append_nil] at heq
  exact ⟨heq.symm, heq ▸ hkeys⟩

theorem carefulStep_interrupt {scancode : UInt8} (hne : scancode ≠ extendedSc) (hfree : s.Free scancode) :
    CarefulStep s (.interrupt scancode) (s.interrupted scancode) :=
  ⟨.interrupt, fun _ h => (by cases h; exact ⟨hne, hfree⟩)⟩

theorem carefulStep_statement {result : Option UInt8} (hstep : Step s (.statement result) s') :
    CarefulStep s (.statement result) s' :=
  ⟨hstep, fun _ h => (by cases h)⟩

/-- A key from a state with nothing under way is returned by the next three statements. -/
theorem State.CaughtUp.press (h : s.CaughtUp) {scancode : UInt8} (hne : scancode ≠ extendedSc) :
    ∃ s', Run CarefulStep s [.interrupt scancode, .statement none, .statement none,
      .statement (some scancode)] s' ∧
      s'.CaughtUp := by
  obtain ⟨hready, hpc⟩ := h
  have hint := carefulStep_interrupt hne ⟨hready, fun hread => absurd (hpc.symm.trans hread) (by decide)⟩
  exact ⟨_, .cons hint (.cons (carefulStep_statement (.test hpc rfl))
    (.cons (carefulStep_statement (.clear rfl))
    (.cons (carefulStep_statement (.read rfl hne)) (.nil _)))), rfl, rfl⟩

/-- A code that comes again before the statement that reads it is returned twice. -/
theorem State.CaughtUp.again (h : s.CaughtUp) {scancode : UInt8} (hne : scancode ≠ extendedSc) :
    ∃ s', Run CarefulStep s [.interrupt scancode, .statement none, .statement none, .interrupt scancode,
      .statement (some scancode), .statement none, .statement none, .statement (some scancode)] s' ∧
        s'.CaughtUp := by
  obtain ⟨hready, hpc⟩ := h
  have hfirst := carefulStep_interrupt hne ⟨hready, fun hread => absurd (hpc.symm.trans hread) (by decide)⟩
  have hsecond : CarefulStep ⟨false, scancode, s.keystate, .read⟩ (.interrupt scancode) _ :=
    carefulStep_interrupt hne ⟨rfl, fun _ => rfl⟩
  exact ⟨_, .cons hfirst (.cons (carefulStep_statement (.test hpc rfl))
    (.cons (carefulStep_statement (.clear rfl))
    (.cons hsecond (.cons (carefulStep_statement (.read rfl hne)) (.cons (carefulStep_statement (.test rfl rfl))
      (.cons (carefulStep_statement (.clear rfl))
        (.cons (carefulStep_statement (.read rfl hne)) (.nil _)))))))), rfl, rfl⟩

/-- A shift key, a letter that is repeated while its code is about to be read, and
the release of the shift key. -/
theorem keys_in_order_shifted : ∃ events s, Run CarefulStep (.init 0) events s ∧ s.CaughtUp ∧
    returnedIn events = [0x2A, 0x1E, 0x1E, 0xAA] ∧ s.keystate = ⟨false, false, false⟩ := by
  have hinit : (State.init 0).CaughtUp := ⟨rfl, rfl⟩
  obtain ⟨s₁, hdown, hs₁⟩ := hinit.press (by decide : 0x2A ≠ extendedSc)
  obtain ⟨s₂, hletter, hs₂⟩ := hs₁.again (by decide : 0x1E ≠ extendedSc)
  obtain ⟨s₃, hup, hs₃⟩ := hs₂.press (by decide : 0xAA ≠ extendedSc)
  have hrun := hdown.append (hletter.append hup)
  obtain ⟨-, hall⟩ := keys_in_order 0 _ _ hrun
  obtain ⟨hreturned, hkeys⟩ := hall hs₃
  exact ⟨_, s₃, hrun, hs₃, hreturned, hkeys⟩

/-- The release of a key that comes before its press has been read: the press is lost. -/
theorem key_lost : ∃ s, Run Step (.init 0)
    [.interrupt 0x2A, .interrupt 0xAA, .statement none, .statement none, .statement (some 0xAA)] s ∧
    s.CaughtUp ∧
    ¬ returnedIn [.interrupt 0x2A, .interrupt 0xAA, .statement none, .statement none,
      .statement (some 0xAA)] <+:
      deliveredIn [.interrupt 0x2A, .interrupt 0xAA, .statement none, .statement none,
        .statement (some 0xAA)] :=
  ⟨_, .cons .interrupt (.cons .interrupt
    (.cons (.test rfl rfl) (.cons (.clear rfl) (.cons (.read rfl (by decide)) (.nil _))))),
      ⟨rfl, rfl⟩, by decide⟩

end GeckoOS.Drivers.Keyboard
