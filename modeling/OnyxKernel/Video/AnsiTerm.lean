import OnyxKernel.Infra.Bytes
import OnyxKernel.Infra.Checked
import OnyxKernel.Infra.Machine
import OnyxKernel.Mm.Pmm

/-!
# The framebuffer console

`drivers/video/fb_term/ansi`: the interpreter of escape sequences behind the console, with the painting that
it does through `drivers/video/fb`. The screen in force is an argument of every function, since it may change
from one byte to the next.

The console reaches memory by two base addresses: the paint surface (the back buffer, or the framebuffer if
there is none) and the page run of `G_SAVE_PA`. An access is written down with the area its address was
computed from, the offset and the length. What the bytes are is not followed; the colour painted is.

A `Stop` is where the source would leave its arithmetic: a subtraction below zero, a `clamp` with crossed
bounds, an index past an array, or a loop that does not end.
-/

namespace Video

open Infra Mm StateProg

/-! ## The screen -/

/-- `fb::Fb`: the installed framebuffer. -/
structure Fb where
  base : Nat
  width : Nat
  height : Nat
  pitch : Nat
  bpp : Nat
  enabled : Bool

/-- The screen that a byte meets. -/
structure Screen where
  /-- `G_FB` -/
  fb : Fb
  /-- `G_BACK_PA`: the back buffer, or 0. -/
  backPa : Nat
  /-- `SERIAL_MIRROR` -/
  mirrored : Bool

def Screen.paintBase (g : Screen) : Nat := if g.backPa ≠ 0 then g.backPa else g.fb.base

/-- `fb::size_bytes`: the bytes of the framebuffer, and of the back buffer made for it. -/
def Screen.sizeBytes (g : Screen) : Nat := g.fb.pitch * g.fb.height

/-- `geometry`: the rows and columns of the console. -/
def geometry (width height : Nat) (mirrored : Bool) : Nat × Nat :=
  if mirrored then (max 1 (min (height / 16) 24), max 1 (min (width / 8) 80))
  else (max (height / 16) 1, max (width / 8) 1)

def consoleGeometry (g : Screen) : Nat × Nat := geometry g.fb.width g.fb.height g.mirrored

/-! ## Accesses -/

inductive Area
  /-- The paint surface. -/
  | surface
  /-- The page run of `G_SAVE_PA`. -/
  | saved
  deriving DecidableEq

/-- Consecutive bytes of an area. -/
structure Span where
  area : Area
  off : Nat
  len : Nat
  deriving DecidableEq

/-- What the console does to memory. -/
inductive Access
  | paint (dst : Span) (color : UInt32)
  | copy (src dst : Span)
  deriving DecidableEq

/-! ## State -/

inductive ParseState
  | ground
  | esc
  | csi
  deriving DecidableEq

def fontW : Nat := 8

def fontH : Nat := 16

def colBlack : UInt32 := 0x000000

def colWhite : UInt32 := 0xFFFFFF

structure AnsiTerm where
  cols : Nat
  rows : Nat
  curRow : Nat
  curCol : Nat
  fg : UInt32
  bg : UInt32
  reverse : Bool
  saveRow : Nat
  saveCol : Nat
  saveFg : UInt32
  saveBg : UInt32
  /-- The scroll region, both rows included. -/
  top : Nat
  bot : Nat
  state : ParseState
  /-- `params: [u32; 16]` -/
  params : Fin 16 → Nat
  nparams : Nat
  /-- `private`: a question mark was seen. -/
  privateMarker : Bool
  cursorVisible : Bool

def AnsiTerm.new : AnsiTerm where
  cols := 80
  rows := 25
  curRow := 0
  curCol := 0
  fg := colWhite
  bg := colBlack
  reverse := false
  saveRow := 0
  saveCol := 0
  saveFg := colWhite
  saveBg := colBlack
  top := 0
  bot := 24
  state := .ground
  params := fun _ => 0
  nparams := 0
  privateMarker := false
  cursorVisible := true

structure Console where
  /-- `G_ANSI` -/
  term : AnsiTerm
  /-- `G_SAVE_PA`, as a frame number; 0 if there is no saved screen. -/
  savePa : Nat
  /-- Physical memory and its allocator. -/
  mm : MmState
  /-- The pages of the run that `savePa` refers to. Nothing reads it. -/
  savedPages : Nat
  /-- The accesses of the byte in hand, the last one first. Nothing reads it. -/
  accesses : List Access

inductive Stop
  | underflow
  | crossedClamp
  | badIndex
  | endless
  deriving DecidableEq

abbrev Con := StateProg Console Stop

def term : Con AnsiTerm := gets (·.term)

def setTerm (f : AnsiTerm → AnsiTerm) : Con Unit := modify fun c => { c with term := f c.term }

def access (a : Access) : Con Unit := modify fun c => { c with accesses := a :: c.accesses }

/-- `a - b` of the source. -/
def sub (a b : Nat) : Con Nat := if b ≤ a then pure (a - b) else fail .underflow

def clamp (x lo hi : Nat) : Con Nat := if lo ≤ hi then pure (max lo (min x hi)) else fail .crossedClamp

/-- `params.get(i)`. -/
def AnsiTerm.param? (t : AnsiTerm) (i : Nat) : Option Nat := if h : i < 16 then some (t.params ⟨i, h⟩) else none

/-- `params[i]`. -/
def param (i : Nat) : Con Nat := do
  match (← term).param? i with
  | some v => pure v
  | none => fail .badIndex

def syncSize (g : Screen) : Con Unit := do
  let oldRows := (← term).rows
  setTerm fun t => { t with rows := (consoleGeometry g).1, cols := (consoleGeometry g).2 }
  let t ← term
  onlyIf (t.top = 0 ∧ t.bot + 1 = oldRows) do
    let last ← sub t.rows 1
    setTerm fun t => { t with bot := last }
  let t ← term
  onlyIf (t.rows ≤ t.bot) do
    let last ← sub t.rows 1
    setTerm fun t => { t with bot := last }
  setTerm fun t => { t with top := if t.bot < t.top then t.bot else t.top }
  let t ← term
  let row ← clamp t.curRow t.top t.bot
  let last ← sub t.cols 1
  setTerm fun t => { t with curRow := row, curCol := min t.curCol last }

def saveCursor : Con Unit :=
  setTerm fun t => { t with saveRow := t.curRow, saveCol := t.curCol, saveFg := t.fg, saveBg := t.bg }

def restoreCursor : Con Unit := do
  let t ← term
  let lastRow ← sub t.rows 1
  let lastCol ← sub t.cols 1
  setTerm fun t =>
    { t with curRow := min t.saveRow lastRow, curCol := min t.saveCol lastCol, fg := t.saveFg, bg := t.saveBg }

/-! ## Painting -/

section Painting

variable (font : UInt8 → Bytes 16) (g : Screen)

/-- The bytes that `put_pixel_at_base` stores for one pixel. -/
def pixelBytes (bpp : Nat) : Nat := if bpp ≤ 16 then 2 else if 32 ≤ bpp then 4 else 3

/-- `put_pixel_at_base` on the paint surface. -/
def putPixel (x y : Nat) (color : UInt32) : Con Unit :=
  onlyIf (g.fb.enabled = true ∧ x < g.fb.width ∧ y < g.fb.height)
    (access (.paint ⟨.surface, y * g.fb.pitch + x * (g.fb.bpp / 8), pixelBytes g.fb.bpp⟩ color))

def drawChar (x y : Nat) (ch : UInt8) (fg bg : UInt32) : Con Unit :=
  forUpTo fontH 0 fun row => forUpTo fontW 0 fun col => do
    let shift ← sub 7 col
    let on := (((font ch).get row).toNat >>> shift) % 2
    putPixel g (x + col) (y + row) (if on ≠ 0 then fg else bg)

def drawCharAt (row col : Nat) (ch : UInt8) : Con Unit := do
  let t ← term
  drawChar font g (col * fontW) (row * fontH) ch (if t.reverse then t.bg else t.fg) (if t.reverse then t.fg else t.bg)

/-- `clear_row_bytes`: two bytes at a time on a 16-bit surface, with the odd byte after them. -/
def clearRowBytes (off len : Nat) (color : UInt32) : Con Unit := access (.paint ⟨.surface, off, len⟩ color)

def Screen.direct (g : Screen) : Bool := g.paintBase != 0 && (g.fb.bpp == 32 || g.fb.bpp == 16)

def copyRow (src dst : Nat) : Con Unit :=
  let rowBytes := g.fb.pitch * fontH
  access (.copy ⟨.surface, src * rowBytes, rowBytes⟩ ⟨.surface, dst * rowBytes, rowBytes⟩)

def scrollUp : Con Unit := do
  let t ← term
  onlyIf (g.direct = true ∧ g.fb.pitch ≠ 0) do
    forUpTo (t.bot - t.top) t.top fun row => copyRow g (row + 1) row
    clearRowBytes (t.bot * (g.fb.pitch * fontH)) (g.fb.pitch * fontH) t.bg

def scrollDown : Con Unit := do
  let t ← term
  onlyIf (g.direct = true ∧ g.fb.pitch ≠ 0) do
    -- `while row > self.top`, with `row` counted down from `self.bot`.
    forUpTo (t.bot - t.top) 0 fun k => do
      let row ← sub t.bot k
      let above ← sub row 1
      copyRow g above row
    clearRowBytes (t.top * (g.fb.pitch * fontH)) (g.fb.pitch * fontH) t.bg

def clearRow (row : Nat) : Con Unit := do
  let t ← term
  if g.direct = true then clearRowBytes (row * g.fb.pitch * fontH) (g.fb.pitch * fontH) t.bg
  else
    forUpTo (t.cols * fontW) 0 fun x => forUpTo fontH 0 fun dy => putPixel g x (row * fontH + dy) t.bg

def eraseLine (mode : Nat) : Con Unit := do
  let t ← term
  let x0 := if mode = 0 then t.curCol * fontW else 0
  let x1 := if mode = 1 then (t.curCol + 1) * fontW else t.cols * fontW
  let y := t.curRow * fontH
  forUpTo (min x1 g.fb.width - x0) x0 fun x => do
    let below ← sub g.fb.height y
    forUpTo (min fontH below) 0 fun dy => putPixel g x (y + dy) t.bg
  onlyIf (mode = 1) (drawCharAt font g t.curRow t.curCol 0x20)

def eraseDisplay (mode : Nat) : Con Unit := do
  let t ← term
  match mode with
  | 0 =>
    eraseLine font g 0
    forUpTo (t.rows - (t.curRow + 1)) (t.curRow + 1) (clearRow g)
  | 1 =>
    eraseLine font g 1
    forUpTo t.curRow 0 (clearRow g)
  | _ => forUpTo t.rows 0 (clearRow g)

def index : Con Unit := do
  let t ← term
  if t.curRow = t.bot then scrollUp g
  else do
    let last ← sub t.rows 1
    onlyIf (t.curRow < last) (setTerm fun t => { t with curRow := t.curRow + 1 })

def reverseIndex : Con Unit := do
  let t ← term
  if t.curRow = t.top then scrollDown g
  else
    onlyIf (0 < t.curRow) do
      let row ← sub t.curRow 1
      setTerm fun t => { t with curRow := row }

def printChar (ch : UInt8) : Con Unit := do
  let t ← term
  drawCharAt font g t.curRow t.curCol ch
  setTerm fun t => { t with curCol := t.curCol + 1 }
  let t ← term
  onlyIf (t.cols ≤ t.curCol) do
    setTerm fun t => { t with curCol := 0 }
    index g

/-! ## The saved screen -/

/-- `surface`: the bytes of the text rows of the paint surface. -/
def surface : Option Nat :=
  if g.direct = true ∧ g.fb.pitch ≠ 0 then some (g.fb.pitch * (g.fb.height / fontH) * fontH) else none

def onPages {α : Type} (p : MmProg α) : Con (Option α) where
  run c := match p.run c.mm with
    | (.ok a, mm) => (.ok (some a), { c with mm := mm })
    | (.error _, mm) => (.ok none, { c with mm := mm })

def pagesFor (bytes : Nat) : Nat := (bytes + 4095) / 4096

/-- `ensure_saved`: a run is allocated at every call, and given back if one is there already. -/
def ensureSaved (bytes : Nat) : Con Nat := do
  match ← onPages (allocN (pagesFor bytes)) with
  | none => pure 0
  | some pa => do
    let existing ← gets (·.savePa)
    if existing = 0 then do
      modify fun c => { c with savePa := pa, savedPages := pagesFor bytes }
      pure pa
    else do
      let _ ← onPages (free pa)
      pure existing

def enterAlt : Con Unit :=
  match surface g with
  | none => pure ()
  | some bytes => do
    let pa ← ensureSaved bytes
    onlyIf (pa ≠ 0) do
      access (.copy ⟨.surface, 0, bytes⟩ ⟨.saved, 0, bytes⟩)
      saveCursor
      clearRowBytes 0 bytes (← term).bg
      setTerm fun t => { t with curRow := 0, curCol := 0 }

def exitAlt : Con Unit :=
  match surface g with
  | none => pure ()
  | some bytes => do
    let pa ← gets (·.savePa)
    onlyIf (pa ≠ 0) do
      access (.copy ⟨.saved, 0, bytes⟩ ⟨.surface, 0, bytes⟩)
      restoreCursor

def setPrivateMode (mode : Nat) (enable : Bool) : Con Unit :=
  if mode = 25 then setTerm fun t => { t with cursorVisible := enable }
  else if mode = 1049 then (if enable then enterAlt g else exitAlt g)
  else pure ()

end Painting

/-! ## Colours -/

/-- `ANSI`. -/
def ansiColors : List UInt32 := [colBlack, 0xFF0000, 0x00FF00, 0xFFFF00, 0x0000FF, 0xFF00FF, 0x00FFFF, colWhite]

/-- `BRIGHT`. -/
def brightColors : List UInt32 := [0x555555, 0xFF5555, 0x55FF55, 0xFFFF55, 0x5555FF, 0xFF55FF, 0x55FFFF, 0xFFFFFF]

def color (idx : Nat) (bright : Bool) : UInt32 := (if bright then brightColors else ansiColors).getD (idx % 8) 0

def quantizeCubeChannel (value : Nat) : Nat := if value = 0 then 0 else min (value * 255 / 255) 255

def rgb (r g b : Nat) : UInt32 :=
  UInt32.ofNat (quantizeCubeChannel r * 65536 + quantizeCubeChannel g * 256 + quantizeCubeChannel b)

def palette256 (index : Nat) : Con UInt32 :=
  if index ≤ 7 then pure (ansiColors.getD index 0)
  else if index ≤ 15 then do pure (brightColors.getD (← sub index 8) 0)
  else if index ≤ 231 then do
    let v ← sub index 16
    pure (rgb (v / 36 * 51) (v / 6 % 6 * 51) (v % 6 * 51))
  else if index ≤ 255 then do
    let gray := 8 + (← sub index 232) * 10
    pure (rgb gray gray gray)
  else pure colWhite

/-- `extended_color`: the colour and the parameters it used. -/
def extendedColor (start n : Nat) : Con (Option (UInt32 × Nat)) := do
  match (← term).param? (start + 1) with
  | none => pure none
  | some kind =>
    if kind = 5 ∧ start + 2 < n then do
      let value ← palette256 (← param (start + 2))
      pure (some (value, 2))
    else if kind = 2 ∧ start + 4 < n then do
      let r ← param (start + 2)
      let g ← param (start + 3)
      let b ← param (start + 4)
      let value := UInt32.ofNat (min r 255 * 65536 + min g 255 * 256 + min b 255)
      pure (some (value, 4))
    else pure none

/-- One round of the loop of `sgr`: the parameters used besides the first, or `none` after a `break`. -/
def sgrRound (n i : Nat) : Con (Option Nat) := do
  let v ← param i
  if v = 0 then do
    setTerm fun t => { t with fg := colWhite, bg := colBlack, reverse := false }
    pure (some 0)
  else if v = 7 ∨ v = 27 then do
    setTerm fun t => { t with reverse := v == 7 }
    pure (some 0)
  else if 30 ≤ v ∧ v ≤ 37 then do
    let idx ← sub v 30
    setTerm fun t => { t with fg := color idx false }
    pure (some 0)
  else if v = 39 then do
    setTerm fun t => { t with fg := colWhite }
    pure (some 0)
  else if 40 ≤ v ∧ v ≤ 47 then do
    let idx ← sub v 40
    setTerm fun t => { t with bg := color idx false }
    pure (some 0)
  else if v = 49 then do
    setTerm fun t => { t with bg := colBlack }
    pure (some 0)
  else if 90 ≤ v ∧ v ≤ 97 then do
    let idx ← sub v 90
    setTerm fun t => { t with fg := color idx true }
    pure (some 0)
  else if 100 ≤ v ∧ v ≤ 107 then do
    let idx ← sub v 100
    setTerm fun t => { t with bg := color idx true }
    pure (some 0)
  else if v = 38 ∨ v = 48 then do
    match ← extendedColor i n with
    | none => pure none
    | some (value, used) => do
      setTerm fun t => if v = 38 then { t with fg := value } else { t with bg := value }
      pure (some used)
  else pure (some 0)

/-- The loop of `sgr` from index `i` on. -/
def sgrLoop (n : Nat) : (fuel i : Nat) → Con Unit
  | 0, i => onlyIf (i < n) (fail .endless)
  | fuel + 1, i =>
    onlyIf (i < n) do
      match ← sgrRound n i with
      | none => pure ()
      | some used => sgrLoop n fuel (i + used + 1)

def sgr : Con Unit := do
  let t ← term
  sgrLoop (min (t.nparams + 1) 16) 16 0

/-! ## Escape sequences -/

/-- The commands that end a control sequence. -/
inductive Command
  | cursorUp | cursorDown | cursorForward | cursorBack | column | row | position
  | eraseDisplay | eraseLine | save | restore
  | mode (enable : Bool)
  | sgr | region | scrollUp | scrollDown | other
  deriving DecidableEq

def commands : List (UInt8 × Command) :=
  [('A'.toUInt8, .cursorUp), ('B'.toUInt8, .cursorDown), ('C'.toUInt8, .cursorForward),
    ('D'.toUInt8, .cursorBack), ('G'.toUInt8, .column), (0x60, .column), ('d'.toUInt8, .row),
    ('H'.toUInt8, .position), ('f'.toUInt8, .position), ('J'.toUInt8, .eraseDisplay),
    ('K'.toUInt8, .eraseLine), ('s'.toUInt8, .save), ('u'.toUInt8, .restore),
    ('h'.toUInt8, .mode true), ('l'.toUInt8, .mode false), ('m'.toUInt8, .sgr),
    ('r'.toUInt8, .region), ('S'.toUInt8, .scrollUp), ('T'.toUInt8, .scrollDown)]

def command (cmd : UInt8) : Command := (commands.lookup cmd).getD .other

/-- `p`: a parameter, or the default if it is missing or 0. -/
def AnsiTerm.p (t : AnsiTerm) (idx default : Nat) : Nat :=
  match t.param? idx with
  | some v => if idx ≤ t.nparams ∧ v ≠ 0 then v else default
  | none => default

section Parser

variable (font : UInt8 → Bytes 16) (g : Screen)

def dispatchCsi (cmd : UInt8) : Con Unit := do
  let t ← term
  match command cmd with
  | .cursorUp => setTerm fun t => { t with curRow := max (t.curRow - t.p 0 1) t.top }
  | .cursorDown => setTerm fun t => { t with curRow := min (t.curRow + t.p 0 1) t.bot }
  | .cursorForward => do
    let last ← sub t.cols 1
    setTerm fun t => { t with curCol := min (t.curCol + t.p 0 1) last }
  | .cursorBack => setTerm fun t => { t with curCol := t.curCol - t.p 0 1 }
  | .column => do
    let last ← sub t.cols 1
    setTerm fun t => { t with curCol := min (t.p 0 1 - 1) last }
  | .row => do
    let last ← sub t.rows 1
    let row ← clamp (min (t.p 0 1 - 1) last) t.top t.bot
    setTerm fun t => { t with curRow := row }
  | .position => do
    let lastRow ← sub t.rows 1
    let lastCol ← sub t.cols 1
    let row ← clamp (min (t.p 0 1 - 1) lastRow) t.top t.bot
    setTerm fun t => { t with curRow := row, curCol := min (t.p 1 1 - 1) lastCol }
  | .eraseDisplay => do eraseDisplay font g (← param 0)
  | .eraseLine => do eraseLine font g (← param 0)
  | .save => saveCursor
  | .restore => restoreCursor
  | .mode enable => onlyIf (t.privateMarker = true) do setPrivateMode g (← param 0) enable
  | .sgr => sgr
  | .region => do
    let last ← sub t.rows 1
    let top := min (t.p 0 1 - 1) last
    let bot := min (t.p 1 (t.rows % 2 ^ 32) - 1) last
    onlyIf (top < bot) (setTerm fun t => { t with top := top, bot := bot, curRow := top, curCol := 0 })
  | .scrollUp => forUpTo (t.p 0 1) 0 fun _ => scrollUp g
  | .scrollDown => forUpTo (t.p 0 1) 0 fun _ => reverseIndex g
  | .other => pure ()

def setState (s : ParseState) : Con Unit := setTerm fun t => { t with state := s }

def AnsiTerm.digit (t : AnsiTerm) (c : UInt8) : AnsiTerm :=
  let i : Fin 16 := ⟨min t.nparams 15, by omega⟩
  { t with params := fun j =>
      if j = i then Checked.saturatingAdd 32 (Checked.saturatingMul 32 (t.params i) 10) (c.toNat - 0x30)
      else t.params j }

def csiByte (c : UInt8) : Con Unit :=
  if '0'.toUInt8 ≤ c ∧ c ≤ '9'.toUInt8 then setTerm fun t => t.digit c
  else if c = ';'.toUInt8 then
    setTerm fun t => { t with nparams := if t.nparams < 15 then t.nparams + 1 else t.nparams }
  else if c = '?'.toUInt8 then setTerm fun t => { t with privateMarker := true }
  else
    onlyIf (0x40 ≤ c ∧ c ≤ 0x7e) do
      dispatchCsi font g c
      setState .ground

def escByte (c : UInt8) : Con Unit :=
  if c = '['.toUInt8 then
    setTerm fun t =>
      { t with state := .csi, nparams := 0, params := fun _ => 0, privateMarker := false }
  else if c = '7'.toUInt8 then do
    saveCursor
    setState .ground
  else if c = '8'.toUInt8 then do
    restoreCursor
    setState .ground
  else if c = 'M'.toUInt8 then do
    reverseIndex g
    setState .ground
  else if c = 'D'.toUInt8 then do
    index g
    setState .ground
  else if c = 'E'.toUInt8 then do
    setTerm fun t => { t with curCol := 0 }
    index g
    setState .ground
  else setState .ground

def groundByte (c : UInt8) : Con Unit :=
  if c = 0x1b then setState .esc
  else if c = 0x0a then do
    -- `newline`
    index g
    setTerm fun t => { t with curCol := 0 }
  else if c = 0x0d then setTerm fun t => { t with curCol := 0 }
  else if c = 0x09 then do
    let t ← term
    let last ← sub t.cols 1
    setTerm fun t => { t with curCol := min ((t.curCol + 8) / 8 * 8) last }
  else if c = 0x08 then setTerm fun t => { t with curCol := t.curCol - 1 }
  else if c = 0x07 then pure ()
  else printChar font g c

def putc (c : UInt8) : Con Unit := do
  syncSize g
  let t ← term
  match t.state with
  | .ground => groundByte font g c
  | .esc => escByte g c
  | .csi => csiByte font g c

end Parser

/-! ## Runs of the console -/

/-- What happens to the console: a byte is written while a screen is in force, or the other code of the
kernel works on memory. -/
inductive Action
  | putc (g : Screen) (c : UInt8)
  | elsewhere (mm : MmState)

/-- The console as a machine. A byte at which the arithmetic stops has no next state. -/
def console (font : UInt8 → Bytes 16) : Machine Console Action where
  step c a := match a with
    | .putc g b =>
      match (putc font g b).run { c with accesses := [] } with
      | (.ok _, c') => some c'
      | (.error _, _) => none
    | .elsewhere mm => some { c with mm := mm, accesses := [] }

def Console.boot (mm : MmState) : Console := ⟨.new, 0, mm, 0, []⟩

end Video
