import Einherjar.Colorforth.Code
import Einherjar.Colorforth.Interpreter
import Einherjar.Lib.Numeral

/-! How the editor displays a block: the numbers, the coloured words, and the walk over the
cells of the block. -/
namespace Einherjar.Colorforth
open Einherjar.Io Einherjar.Lib

def hex : List Char :=
  ['0', '1', '2', '3', '4', '5', '6', '7', '8', '9', 'a', 'b', 'c', 'd', 'e', 'f']

/-- `vga_display_character(hex[k])` -/
def displayHex (k : ℤ) : VgaCall :=
  if 0 ≤ k ∧ k < 16 then .displayCharacter (hex.getD k.toNat '\x00') else .displayUnknown

/-- `while (n--)` -/
def printHexLoop : ℕ → BitVec 32 → Bool → List VgaCall
  | 0, _, _ => []
  | n + 1, i, f =>
    if i &&& 0xf0000000#32 = 0 then
      (if f then [.displayCharacter '0'] else []) ++ printHexLoop n (i <<< 4) f
    else displayHex (i >>> 28).toNat :: printHexLoop n (i <<< 4) true

def printHex (i : BitVec 32) : List VgaCall :=
  if i = 0 then [.displayCharacter '0'] else printHexLoop 8 i false

/-- `for (j = 1000000000; j != 0; j /= 10)`: ten iterations. -/
def printDecLoop : ℕ → ℕ → ℤ → Bool → List VgaCall
  | 0, _, _, _ => []
  | n + 1, j, i, f =>
    if j = 0 then []
    else
      let k := i.tdiv j
      if k = 0 then
        (if f then [.displayCharacter '0'] else []) ++ printDecLoop n (j / 10) i f
      else displayHex k :: printDecLoop n (j / 10) (i - j * k) true

def printDec (i : Cell) : List VgaCall :=
  if i = 0 then [.displayCharacter '0']
  else if i.toInt < 0 then
    .displayCharacter '-' :: printDecLoop 10 1000000000 (-i).toInt false
  else printDecLoop 10 1000000000 i.toInt false

def printNumber (word : Cell) (isHex : Bool) : List VgaCall :=
  (if isHex then printHex (word.sshiftRight 5) else printDec (word.sshiftRight 5)) ++
    [.displayCharacter ' ']

/-- `printf("%s ", unpack(word))` -/
def printName (word : Cell) : List VgaCall := display (unpack word ++ [' '])

/-- A number in the cell after the word, in the base that the word says. -/
def printPayload (word payload : Cell) : List VgaCall :=
  (if word &&& 0x10#32 ≠ 0 then printHex payload else printDec payload) ++
    [.displayCharacter ' ']

def attributes (foreground : BitVec 8) : VgaCall := .setAttributes (foreground ||| bgBlack)

/-- `display_word`: its calls and `word_index` after it. -/
def displayWord (blocks : ℕ → Cell) (wordIndex : ℕ) (word : Cell) : List VgaCall × ℕ :=
  match (word &&& 0xf#32).toNat with
  | 0 => ([.updatePosition (-1) 0, .updateCursor] ++ printName word, wordIndex)
  | 1 => (attributes fgYellow :: printName word, wordIndex)
  | 2 => (attributes fgBrown :: printPayload word (blocks (wordIndex + 1)), wordIndex + 1)
  | 3 => (attributes fgRed :: printName word, wordIndex)
  | 4 => (attributes fgBrightGreen :: printName word, wordIndex)
  | 5 => (attributes fgGreen :: printPayload word (blocks (wordIndex + 1)), wordIndex + 1)
  | 6 =>
    if word &&& 0x10#32 ≠ 0 then (attributes fgGreen :: printNumber word true, wordIndex)
    else (attributes fgBrightGreen :: printNumber word false, wordIndex)
  | 7 => (attributes fgBrightCyan :: printName word, wordIndex)
  | 8 =>
    if word &&& 0x10#32 ≠ 0 then (attributes fgBrown :: printNumber word true, wordIndex)
    else (attributes fgYellow :: printNumber word false, wordIndex)
  | 9 | 10 | 11 => (attributes fgBrightWhite :: printName word, wordIndex)
  | 12 =>
    (attributes fgMagenta :: printName word ++
      attributes fgBrightGreen :: printPayload word (blocks (wordIndex + 1)), wordIndex + 1)
  | 14 => (display ['\n'], wordIndex)
  | 15 => (attributes fgBrightWhite :: printNumber word (word &&& 0x10#32 ≠ 0), wordIndex)
  | _ => ([], wordIndex)

/-- A cell position passed to `display_word`, with the calls made for it. -/
structure Pass where
  position : ℕ
  calls : List VgaCall

/-- The loop of `display_block`. `word_index` grows by one or more in every iteration. -/
def displayLoop (blocks : ℕ → Cell) (limit : ℕ) : ℕ → ℕ → List Pass
  | 0, _ => []
  | fuel + 1, wordIndex =>
    if wordIndex < limit then
      let shown := displayWord blocks wordIndex (blocks wordIndex)
      ⟨wordIndex, shown.1⟩ :: displayLoop blocks limit fuel (shown.2 + 1)
    else []

def displayBlock (blocks : ℕ → Cell) (n : Cell) : List Pass :=
  let start := (n * 256).toNat
  let limit := ((n + 1) * 256).toNat
  displayLoop blocks limit (limit - start) start

/-- The tags of the words whose second cell is a number or the value of a variable. -/
def ownsPayload (word : Cell) : Prop :=
  (word &&& 0xf#32).toNat = 2 ∨ (word &&& 0xf#32).toNat = 5 ∨ (word &&& 0xf#32).toNat = 12

instance (word : Cell) : Decidable (ownsPayload word) := by unfold ownsPayload; infer_instance

theorem displayWord_index (blocks : ℕ → Cell) (i : ℕ) (word : Cell) :
    (displayWord blocks i word).2 = if ownsPayload word then i + 1 else i := by
  unfold displayWord ownsPayload
  split <;> split_ifs <;> simp_all

/-- The walk from a cell on. -/
def displayFrom (blocks : ℕ → Cell) (limit start : ℕ) : List Pass :=
  displayLoop blocks limit (limit - start) start

theorem displayLoop_fuel (blocks : ℕ → Cell) {limit fuel fuel' i : ℕ} (h : limit - i ≤ fuel)
    (h' : limit - i ≤ fuel') :
    displayLoop blocks limit fuel i = displayLoop blocks limit fuel' i := by
  induction fuel generalizing fuel' i with
  | zero =>
    cases fuel' with
    | zero => rfl
    | succ fuel' => rw [displayLoop, displayLoop, if_neg (by omega)]
  | succ fuel ih =>
    cases fuel' with
    | zero => rw [displayLoop, displayLoop, if_neg (by omega)]
    | succ fuel' =>
      have hnext := displayWord_index blocks i (blocks i)
      have hge : i ≤ (displayWord blocks i (blocks i)).2 := by
        rw [hnext]
        split_ifs <;> omega
      simp only [displayLoop]
      by_cases hi : i < limit
      · rw [if_pos hi, if_pos hi, ih (by omega) (show _ ≤ fuel' by omega)]
      · rw [if_neg hi, if_neg hi]

theorem displayFrom_of_le (blocks : ℕ → Cell) {limit i : ℕ} (h : limit ≤ i) :
    displayFrom blocks limit i = [] := by
  rw [displayFrom, Nat.sub_eq_zero_of_le h, displayLoop]

/-- One iteration of the walk. -/
theorem displayFrom_of_lt (blocks : ℕ → Cell) {limit i : ℕ} (h : i < limit) :
    displayFrom blocks limit i =
      ⟨i, (displayWord blocks i (blocks i)).1⟩ ::
        displayFrom blocks limit (if ownsPayload (blocks i) then i + 2 else i + 1) := by
  have hnext := displayWord_index blocks i (blocks i)
  obtain ⟨fuel, hfuel⟩ := Nat.exists_eq_succ_of_ne_zero (Nat.sub_ne_zero_of_lt h)
  rw [displayFrom, hfuel, displayLoop, if_pos h]
  simp only [displayFrom, hnext]
  congr 1
  split_ifs
  · exact displayLoop_fuel blocks (by omega) le_rfl
  · exact displayLoop_fuel blocks (by omega) le_rfl

/-- Every position passed lies in the walked cells. -/
theorem displayFrom_position (blocks : ℕ → Cell) (limit i : ℕ) :
    ∀ p ∈ displayFrom blocks limit i, i ≤ p.position ∧ p.position < limit := by
  by_cases hi : i < limit
  · intro p hp
    rw [displayFrom_of_lt blocks hi] at hp
    rcases List.mem_cons.mp hp with rfl | hp
    · exact ⟨le_rfl, hi⟩
    · have hrest := displayFrom_position blocks limit _ p hp
      split_ifs at hrest <;> omega
  · simp [displayFrom_of_le blocks (Nat.le_of_not_lt hi)]
termination_by limit - i
decreasing_by split_ifs <;> omega

end Einherjar.Colorforth
