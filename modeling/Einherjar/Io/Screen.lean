import Mathlib.Data.Nat.Notation
import Mathlib.Logic.Function.Basic
import Einherjar.Lib.Page

/-! The VGA text screen: the cursor, the attributes and the video memory that the functions of
the driver work on. -/
namespace Einherjar.Io
open Einherjar.Lib

def screenStart : ℕ := 0xB8000
def screenPageSize : ℕ := 0xFA0
def screenPageLimit : ℕ := screenStart + screenPageSize

def vgaColumns : ℕ := 80
def vgaLinesMaxIndex : ℕ := 24
def vgaColumnsMaxIndex : ℕ := 79

def vgaControlRegister : BitVec 16 := 0x3D4
def vgaDataRegister : BitVec 16 := 0x3D5

def kbdCrNl : BitVec 8 := 0x0a
def kbdBackspace : BitVec 8 := 0x08
def kbdTabulation : BitVec 8 := 0x09

def fgWhite : BitVec 8 := 7

/-- Neither a new line, nor a backspace, nor a tabulation. -/
def Plain (character : BitVec 8) : Prop :=
  character ≠ kbdCrNl ∧ character ≠ kbdBackspace ∧ character ≠ kbdTabulation

instance (character : BitVec 8) : Decidable (Plain character) := by
  unfold Plain
  infer_instance

/-- `struct vga_symbol` with the memory at the addresses around the video page. `stores` lists
the addresses stored to and `outputs` the calls of `outb`, the last one first. -/
structure Screen where
  video : ℕ → BitVec 8
  positionX : BitVec 8
  positionY : BitVec 8
  attributes : BitVec 8
  stores : List ℕ
  outputs : List (BitVec 16 × BitVec 8)

/-- The address of the character at a row and a column. -/
def cellAddress (row column : ℕ) : ℕ := screenStart + 2 * column + vgaColumns * 2 * row

/-- The bytes of the page. -/
def InPage (address : ℕ) : Prop := screenStart ≤ address ∧ address < screenPageLimit

instance (address : ℕ) : Decidable (InPage address) := by unfold InPage; infer_instance

/-- The driver's variables and the memory before anything has been displayed. -/
def zeroedScreen : Screen where
  video _ := 0
  positionX := 0
  positionY := 0
  attributes := 0
  stores := []
  outputs := []

namespace Screen

def store (s : Screen) (address : ℕ) (byte : BitVec 8) : Screen :=
  { s with video := Function.update s.video address byte, stores := address :: s.stores }

def outb (s : Screen) (port : BitVec 16) (value : BitVec 8) : Screen :=
  { s with outputs := (port, value) :: s.outputs }

/-- The address that the cursor stands for. -/
def videoAddress (s : Screen) : ℕ := cellAddress s.positionY.toNat s.positionX.toNat

def vgaSetPosition (s : Screen) (x y : BitVec 8) : Screen :=
  { s with positionX := x, positionY := y }

def vgaUpdatePosition (s : Screen) (x y : BitVec 8) : Screen :=
  { s with positionX := s.positionX + x, positionY := s.positionY + y }

def vgaSetAttributes (s : Screen) (attributes : BitVec 8) : Screen :=
  { s with attributes := attributes }

def vgaUpdateCursor (s : Screen) : Screen :=
  let position : BitVec 16 := BitVec.ofNat 16 (s.positionY.toNat * 80 + s.positionX.toNat)
  (((s.outb vgaControlRegister 0x0F).outb vgaDataRegister ((position &&& 0xFF).setWidth 8)).outb
    vgaControlRegister 0x0E).outb vgaDataRegister (((position >>> 8) &&& 0xFF).setWidth 8)

/-- The loop of `vga_clear`, over the cells. -/
def clearCells (s : Screen) (cells : List ℕ) : Screen :=
  cells.foldl (fun s k =>
    (s.store (screenStart + 2 * k) 0).store (screenStart + 2 * k + 1) fgWhite) s

/-- The loop goes on for `video <= SCREEN_PAGE_LIMIT`: one cell more than the page has. -/
def vgaClear (s : Screen) : Screen :=
  let s := s.clearCells (List.range (screenPageSize / 2 + 1))
  (s.vgaSetPosition 0 0).vgaUpdateCursor

/-- The byte that takes the place of the one at `video`. -/
def scrolledByte (s : Screen) (nbLines : BitVec 8) (video : ℕ) : BitVec 8 :=
  let tmp := video + nbLines.toNat * vgaColumns * 2
  if tmp < screenPageLimit then s.video tmp else 0

/-- The loop of `vga_scroll_up`, over the addresses of the page. -/
def scrollBytes (s : Screen) (nbLines : BitVec 8) (addresses : List ℕ) : Screen :=
  addresses.foldl (fun s video => s.store video (s.scrolledByte nbLines video)) s

def vgaScrollUp (s : Screen) (nbLines : BitVec 8) : Screen :=
  let s := s.scrollBytes nbLines (List.range' screenStart screenPageSize)
  { s with positionY := s.positionY - nbLines }.vgaUpdateCursor

/-- `if (symbol.position_y > VGA_LINES_MAX_INDEX)`, in two places. -/
def scrollToLastLine (s : Screen) : Screen :=
  if vgaLinesMaxIndex < s.positionY.toNat then
    s.vgaScrollUp (s.positionY - BitVec.ofNat 8 vgaLinesMaxIndex)
  else s

/-- A character and its attributes at the cursor. -/
def storeSymbol (s : Screen) (character : BitVec 8) : Screen :=
  (s.store s.videoAddress character).store (s.videoAddress + 1) s.attributes

/-- The cursor after an ordinary character. -/
def advance (s : Screen) : Screen :=
  let s := { s with positionX := s.positionX + 1 }
  if vgaColumnsMaxIndex < s.positionX.toNat then
    { s with positionX := 0, positionY := s.positionY + 1 }
  else s

/-- The cursor before a backspace is stored: unchanged in the upper left corner. -/
def stepBack (s : Screen) : Screen :=
  if 0 < s.positionX.toNat then { s with positionX := s.positionX - 1 }
  else if 0 < s.positionY.toNat then
    { s with positionY := s.positionY - 1, positionX := BitVec.ofNat 8 vgaColumnsMaxIndex }
  else s

def vgaDisplayCharacter (s : Screen) (character : BitVec 8) : Screen :=
  let s :=
    if character = kbdCrNl then
      { s with positionX := 0, positionY := s.positionY + 1 }.scrollToLastLine
    else if character = kbdBackspace then s.stepBack.storeSymbol 0x20
    else if character = kbdTabulation then
      if s.positionX.toNat + 4 > vgaColumns then s
      else { s with positionX := s.positionX + 4 }
    else (s.storeSymbol character).advance.scrollToLastLine
  s.vgaUpdateCursor

end Screen

end Einherjar.Io
