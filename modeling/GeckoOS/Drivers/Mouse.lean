import GeckoOS.Lib.CInt
import GeckoOS.Terminal.Console

/-! The mouse of ps2mouse.c. Four bytes are a packet: the buttons with the signs of
the movements, the two movements and the wheel. -/
namespace GeckoOS.Terminal

/-- As in terminal.h, which replaces the 25 lines of vga.h. -/
def vgaTextHeight : Nat := 48

end GeckoOS.Terminal

namespace GeckoOS.Drivers
open Terminal

/-- MOUSE_STATUS: the bits of the first byte. -/
structure MouseStatus where
  leftButton : Bool
  rightButton : Bool
  middleButton : Bool
  always1 : Bool
  xSign : Bool
  ySign : Bool
  xOverflow : Bool
  yOverflow : Bool

def getMouseStatus (statusByte : UInt8) : MouseStatus where
  leftButton := statusByte &&& 0x01 != 0
  rightButton := statusByte &&& 0x02 != 0
  middleButton := statusByte &&& 0x04 != 0
  always1 := statusByte &&& 0x08 != 0
  xSign := statusByte &&& 0x10 != 0
  ySign := statusByte &&& 0x20 != 0
  xOverflow := statusByte &&& 0x40 != 0
  yOverflow := statusByte &&& 0x80 != 0

/-- What the callback gets; the coordinates are cut to 16 bits. -/
structure MouseEventData where
  x : Int
  y : Int
  scroll : Int
  buttons : UInt8
  eventType : UInt8

/-- The variables of the driver. The bytes are of the signed type `char`. -/
structure Mouse where
  xPos : Int
  yPos : Int
  status : MouseStatus
  cycle : Nat
  byte : Nat → UInt8

/-- The value of a `char`. -/
def charVal (b : UInt8) : Int := b.toInt8.toInt

/-- The two comparisons of a coordinate with its ends. -/
def limit (size : Nat) (pos : Int) : Int :=
  if pos < 0 then 0 else if (size : Int) < pos then size - 1 else pos

namespace Mouse
variable (s : Mouse)

/-- The state that `mouse_init` leaves. -/
def mouseInit : Mouse := ⟨5, 2, getMouseStatus 0, 0, fun _ => 0⟩

/-- The end of a packet. -/
def move : Mouse :=
  { s with
    xPos := limit vgaTextWidth (s.xPos + charVal (s.byte 1))
    yPos := limit vgaTextHeight (s.yPos - charVal (s.byte 2))
    cycle := 0 }

def eventData : MouseEventData where
  buttons := s.byte 0
  eventType := 0
  x := s.xPos.bmod (2^16)
  y := s.yPos.bmod (2^16)
  scroll := charVal (s.byte 3)

/-- `mouse_byte[mouse_cycle] = mouse_read()`. -/
def store (b : UInt8) : Mouse := { s with byte := Function.update s.byte s.cycle b }

/-- `mouse_handler` with the byte that it reads, and the event that it passes on. -/
def mouseHandler (b : UInt8) : Mouse × Option MouseEventData :=
  if s.cycle = 0 then ({ s.store b with status := getMouseStatus b, cycle := 1 }, none)
  else if s.cycle < 3 then ({ s.store b with cycle := s.cycle + 1 }, none)
  else ((s.store b).move, some (s.store b).move.eventData)

/-! What a packet says. -/

/-- A movement of nine bits: the sign bit of the first byte in front of a byte. -/
def nineBits (sign : Bool) (b : UInt8) : Int := b.toNat - if sign then 256 else 0

def dx : Int := nineBits (getMouseStatus (s.byte 0)).xSign (s.byte 1)
def dy : Int := nineBits (getMouseStatus (s.byte 0)).ySign (s.byte 2)

/-- The nearest place of a line of this size. -/
def clamp (size : Nat) (pos : Int) : Int := max 0 (min pos (size - 1))

/-- The sign bit is that of the byte, and the movement does not end one behind the
last place; or the movement of -256 begins at the end that it leads to. -/
def Meets (size : Nat) (pos move : Int) (sign : Bool) (b : UInt8) (last : Int) : Prop :=
  sign = decide (128 ≤ b) ∧ pos + move ≠ size ∨ sign = true ∧ b = 0 ∧ pos = last

/-- Both movements of the packet do. -/
def Regular : Prop :=
  Meets vgaTextWidth s.xPos (charVal (s.byte 1)) (getMouseStatus (s.byte 0)).xSign (s.byte 1) 0 ∧
  Meets vgaTextHeight s.yPos (-charVal (s.byte 2)) (getMouseStatus (s.byte 0)).ySign (s.byte 2)
    (vgaTextHeight - 1)

instance instDecidableRegular : Decidable s.Regular := by
  unfold Regular Meets
  infer_instance

/-- The position is on the screen of the header. -/
structure OnScreen : Prop where
  x_nonneg : 0 ≤ s.xPos
  x_lt : s.xPos < vgaTextWidth
  y_nonneg : 0 ≤ s.yPos
  y_lt : s.yPos < vgaTextHeight

variable {s : Mouse} {size : Nat} {pos : Int} {b : UInt8}

theorem charVal_eq (b : UInt8) : charVal b = b.toNat - if 128 ≤ b.toNat then 256 else 0 := by
  have hlt := b.toNat_lt
  rw [charVal, Int8.toInt, BitVec.toInt_eq_toNat_cond]
  change (if 2 * b.toNat < 2 ^ 8 then (b.toNat : Int) else (b.toNat : Int) - (2 ^ 8 : Nat)) = _
  split
  · rw [if_neg (by omega)]
    omega
  · rw [if_pos (by omega)]
    omega

/-- A movement and the same one with another high bit end at the same place. -/
theorem limit_eq_clamp_iff {move far : Int} (hsize : 2 ≤ size ∧ size ≤ 128) (hnonneg : 0 ≤ pos)
    (hlt : pos < size)
    (hmove : -128 ≤ move ∧ move ≤ 128) (hfar : far = move ∨ far = move - 256 ∨ far = move + 256) :
    limit size (pos + move) = clamp size (pos + far) ↔ far = move ∧ pos + move ≠ size ∨
      far = move - 256 ∧ pos + move ≤ 0 ∨ far = move + 256 ∧ (pos + move = size - 1 ∨ size < pos + move) := by
  rw [limit, clamp]
  split
  · omega
  · split <;> omega

/-- The nine bits against the byte alone. -/
theorem nineBits_cases (sign : Bool) (b : UInt8) :
    sign = decide (128 ≤ b) ∧ nineBits sign b = charVal b ∨
    sign = false ∧ 128 ≤ b.toNat ∧ nineBits sign b = charVal b + 256 ∨
    sign = true ∧ b.toNat < 128 ∧ nineBits sign b = charVal b - 256 := by
  have hle : 128 ≤ b ↔ 128 ≤ b.toNat := UInt8.le_iff_toNat_le
  rw [nineBits, charVal_eq]
  by_cases hb : 128 ≤ b.toNat
  · rw [if_pos hb, decide_eq_true (hle.mpr hb)]
    cases sign with
    | false => exact .inr (.inl ⟨rfl, hb, by simp⟩)
    | true => exact .inl ⟨rfl, rfl⟩
  · rw [if_neg hb, decide_eq_false (mt hle.mp hb)]
    cases sign with
    | false => exact .inl ⟨rfl, rfl⟩
    | true => exact .inr (.inr ⟨rfl, by omega, by simp⟩)

theorem charVal_bounds (b : UInt8) : -128 ≤ charVal b ∧ charVal b ≤ 127 := by
  have hlt := b.toNat_lt
  rw [charVal_eq]
  split <;> omega

/-! The condition in the three cases. -/

variable {shift last : Int} {sign : Bool}

theorem meets_same (hsign : sign = decide (128 ≤ b)) : Meets size pos shift sign b last ↔
    pos + shift ≠ size := by
  constructor
  · rintro (⟨-, hne⟩ | ⟨htrue, rfl, -⟩)
    · exact hne
    · rw [hsign] at htrue
      exact absurd htrue (by decide)
  · exact fun hne => .inl ⟨hsign, hne⟩

theorem not_meets_high (hsign : sign = false) (hb : 128 ≤ b.toNat) : ¬ Meets size pos shift sign b last := by
  rintro (⟨hsame, -⟩ | ⟨htrue, -, -⟩)
  · have hle : (128 : UInt8) ≤ b := UInt8.le_iff_toNat_le.mpr hb
    rw [hsign, decide_eq_true hle] at hsame
    cases hsame
  · rw [hsign] at htrue
    cases htrue

theorem meets_low (hsign : sign = true) (hb : b.toNat < 128) :
    Meets size pos shift sign b last ↔ b.toNat = 0 ∧ pos = last := by
  have hfalse : decide (128 ≤ b) = false :=
    decide_eq_false fun h => Nat.not_le.mpr hb (UInt8.le_iff_toNat_le.mp h)
  constructor
  · rintro (⟨hsame, -⟩ | ⟨-, hzero, hpos⟩)
    · rw [hsign, hfalse] at hsame
      cases hsame
    · rw [hzero]
      exact ⟨rfl, hpos⟩
  · exact fun h => .inr ⟨hsign, UInt8.toNat_inj.mp h.1, h.2⟩

/-- The horizontal movement ends where it should. -/
theorem limit_add_iff (sign : Bool) (b : UInt8) (hsize : 2 ≤ size ∧ size ≤ 128) (hnonneg : 0 ≤ pos)
    (hlt : pos < size) :
    limit size (pos + charVal b) = clamp size (pos + nineBits sign b) ↔
    Meets size pos (charVal b) sign b 0 := by
  have ⟨hlo, hhi⟩ := charVal_bounds b
  have hbyte := b.toNat_lt
  have hval := charVal_eq b
  obtain ⟨hsign, heq⟩ | ⟨hsign, hb, heq⟩ | ⟨hsign, hb, heq⟩ := nineBits_cases sign b
  · rw [limit_eq_clamp_iff hsize hnonneg hlt ⟨hlo, by omega⟩ (by omega), meets_same hsign]
    omega
  · rw [limit_eq_clamp_iff hsize hnonneg hlt ⟨hlo, by omega⟩ (by omega),
      iff_false_right (not_meets_high hsign hb)]
    rw [if_pos hb] at hval
    omega
  · rw [limit_eq_clamp_iff hsize hnonneg hlt ⟨hlo, by omega⟩ (by omega), meets_low hsign hb]
    rw [if_neg (by omega)] at hval
    omega

/-- The vertical movement, which counts upwards. -/
theorem limit_sub_iff (sign : Bool) (b : UInt8) (hsize : 2 ≤ size ∧ size ≤ 128) (hnonneg : 0 ≤ pos)
    (hlt : pos < size) :
    limit size (pos - charVal b) = clamp size (pos - nineBits sign b) ↔
      Meets size pos (-charVal b) sign b (size - 1) := by
  have ⟨hlo, hhi⟩ := charVal_bounds b
  have hbyte := b.toNat_lt
  have hval := charVal_eq b
  rw [Int.sub_eq_add_neg, Int.sub_eq_add_neg]
  obtain ⟨hsign, heq⟩ | ⟨hsign, hb, heq⟩ | ⟨hsign, hb, heq⟩ := nineBits_cases sign b
  · rw [limit_eq_clamp_iff hsize hnonneg hlt ⟨by omega, by omega⟩ (by omega), meets_same hsign]
    omega
  · rw [limit_eq_clamp_iff hsize hnonneg hlt ⟨by omega, by omega⟩ (by omega),
      iff_false_right (not_meets_high hsign hb)]
    rw [if_pos hb] at hval
    omega
  · rw [limit_eq_clamp_iff hsize hnonneg hlt ⟨by omega, by omega⟩ (by omega), meets_low hsign hb]
    rw [if_neg (by omega)] at hval
    omega

/-- A packet on the screen ends where it should exactly if it is regular. -/
theorem OnScreen.tracked_iff (h : s.OnScreen) :
    s.move.xPos = clamp vgaTextWidth (s.xPos + s.dx) ∧
    s.move.yPos = clamp vgaTextHeight (s.yPos - s.dy) ↔ s.Regular :=
  and_congr (limit_add_iff _ _ (by decide) h.x_nonneg h.x_lt) (limit_sub_iff _ _ (by decide) h.y_nonneg h.y_lt)

theorem clamp_bounds (hsize : 0 < size) (pos : Int) : 0 ≤ clamp size pos ∧ clamp size pos < size := by
  rw [clamp]
  omega

theorem OnScreen.move (h : s.OnScreen) (hregular : s.Regular) : s.move.OnScreen := by
  obtain ⟨hx, hy⟩ := h.tracked_iff.mpr hregular
  have hwidth : 0 < vgaTextWidth := by decide
  have hheight : 0 < vgaTextHeight := by decide
  obtain ⟨hxlo, hxhi⟩ := clamp_bounds hwidth (s.xPos + s.dx)
  obtain ⟨hylo, hyhi⟩ := clamp_bounds hheight (s.yPos - s.dy)
  exact ⟨hx ▸ hxlo, hx ▸ hxhi, hy ▸ hylo, hy ▸ hyhi⟩

/-! The handler. -/

theorem mouseHandler_start (h : s.cycle < 3) (b : UInt8) : (s.mouseHandler b).2 = none ∧
    (s.mouseHandler b).1.xPos = s.xPos ∧ (s.mouseHandler b).1.yPos = s.yPos := by
  rw [mouseHandler]
  split
  · exact ⟨rfl, rfl, rfl⟩
  · exact ⟨rfl, rfl, rfl⟩

theorem mouseHandler_end (h : ¬ s.cycle < 3) (b : UInt8) :
    s.mouseHandler b = ((s.store b).move, some (s.store b).move.eventData) := by
  rw [mouseHandler, if_neg (by omega), if_neg h]

theorem OnScreen.store (h : s.OnScreen) (b : UInt8) : (s.store b).OnScreen :=
  ⟨h.x_nonneg, h.x_lt, h.y_nonneg, h.y_lt⟩

theorem OnScreen.handler_start (h : s.OnScreen) (hcycle : s.cycle < 3) (b : UInt8) :
    (s.mouseHandler b).1.OnScreen := by
  obtain ⟨-, hx, hy⟩ := mouseHandler_start hcycle b
  exact ⟨hx ▸ h.x_nonneg, hx ▸ h.x_lt, hy ▸ h.y_nonneg, hy ▸ h.y_lt⟩

end Mouse
end GeckoOS.Drivers
