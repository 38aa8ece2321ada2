import OnyxKernel.Video.AnsiTerm
import Mathlib.Tactic.Ring

/-!
# Console output and memory

What every byte keeps: the cursor and the scroll region are inside the grid, no arithmetic stops, and every
access is inside the paint surface or inside the page run of the saved screen.

`Steady g p` says that `p` keeps this, whatever the state; it is closed under sequencing, tests and loops, so
each command is taken apart along its text.
-/

namespace Video

open Infra Mm StateProg

/-- The screens that the console may meet. -/
structure Screen.InForce (g : Screen) : Prop where
  width : 8 ≤ g.fb.width
  height : 16 ≤ g.fb.height
  bpp : g.fb.bpp = 16 ∨ g.fb.bpp = 32
  pitch : g.fb.width * (g.fb.bpp / 8) ≤ g.fb.pitch

/-- The cursor and the scroll region are inside the grid of the screen. -/
structure Grid (g : Screen) (t : AnsiTerm) : Prop where
  rows : t.rows = (consoleGeometry g).1
  cols : t.cols = (consoleGeometry g).2
  top_le : t.top ≤ t.bot
  bot_lt : t.bot < t.rows
  row_lt : t.curRow < t.rows
  col_lt : t.curCol < t.cols

/-- The bytes are inside their area: the surface, or a run of `pages` pages. -/
def Span.Within (g : Screen) (pages : Nat) (s : Span) : Prop :=
  match s.area with
  | .surface => s.off + s.len ≤ g.sizeBytes
  | .saved => s.off + s.len ≤ pages * 4096

def Access.Within (g : Screen) (pages : Nat) : Access → Prop
  | .paint dst _ => dst.Within g pages
  | .copy src dst => src.Within g pages ∧ dst.Within g pages

def Console.Confined (g : Screen) (c : Console) : Prop := ∀ a ∈ c.accesses, a.Within g c.savedPages

instance (g : Screen) (pages : Nat) (s : Span) : Decidable (s.Within g pages) := by
  unfold Span.Within
  split <;> infer_instance

instance (g : Screen) (pages : Nat) (a : Access) : Decidable (a.Within g pages) :=
  match a with
  | .paint dst _ => inferInstanceAs (Decidable (dst.Within g pages))
  | .copy src dst => inferInstanceAs (Decidable (src.Within g pages ∧ dst.Within g pages))

/-! ## Geometry -/

section Geometry

variable {g : Screen}

theorem one_le_rows (g : Screen) : 1 ≤ (consoleGeometry g).1 := by
  unfold consoleGeometry geometry
  split <;> simp only [] <;> omega

theorem one_le_cols (g : Screen) : 1 ≤ (consoleGeometry g).2 := by
  unfold consoleGeometry geometry
  split <;> simp only [] <;> omega

theorem Screen.InForce.rows_le (hg : g.InForce) : (consoleGeometry g).1 * 16 ≤ g.fb.height := by
  have := hg.height
  unfold consoleGeometry geometry
  split <;> simp only [] <;> omega

theorem Screen.InForce.row_within (hg : g.InForce) {row : Nat} (h : row < (consoleGeometry g).1) :
    row * (g.fb.pitch * fontH) + g.fb.pitch * fontH ≤ g.sizeBytes := by
  have hrows := hg.rows_le
  have hend : (row + 1) * 16 ≤ g.fb.height := by omega
  calc row * (g.fb.pitch * fontH) + g.fb.pitch * fontH = g.fb.pitch * ((row + 1) * 16) := by
        rw [fontH]; ring
    _ ≤ g.fb.pitch * g.fb.height := Nat.mul_le_mul_left _ hend

theorem Screen.InForce.pixel_within (hg : g.InForce) {x y : Nat} (hx : x < g.fb.width)
    (hy : y < g.fb.height) :
    y * g.fb.pitch + x * (g.fb.bpp / 8) + pixelBytes g.fb.bpp ≤ g.sizeBytes := by
  have hbytes : pixelBytes g.fb.bpp = g.fb.bpp / 8 := by
    rcases hg.bpp with h | h <;> simp [pixelBytes, h]
  have hline : (x + 1) * (g.fb.bpp / 8) ≤ g.fb.pitch := (Nat.mul_le_mul_right _ hx).trans hg.pitch
  calc y * g.fb.pitch + x * (g.fb.bpp / 8) + pixelBytes g.fb.bpp
      = y * g.fb.pitch + (x + 1) * (g.fb.bpp / 8) := by rw [hbytes]; ring
    _ ≤ y * g.fb.pitch + g.fb.pitch := Nat.add_le_add_left hline _
    _ = g.fb.pitch * (y + 1) := by ring
    _ ≤ g.fb.pitch * g.fb.height := Nat.mul_le_mul_left _ hy

theorem surface_le {bytes : Nat} (h : surface g = some bytes) : bytes ≤ g.sizeBytes := by
  unfold surface at h
  split at h
  · cases h
    rw [Nat.mul_assoc]
    exact Nat.mul_le_mul_left _ (Nat.div_mul_le_self _ _)
  · cases h

theorem le_pagesFor (bytes : Nat) : bytes ≤ pagesFor bytes * 4096 := by
  unfold pagesFor
  omega

end Geometry

/-! ## Programs that keep the console sound -/

/-- The grid and the accesses so far are in order. -/
structure Sound (g : Screen) (c : Console) : Prop where
  grid : Grid g c.term
  confined : c.Confined g

def Steady {α : Type} (g : Screen) (p : Con α) : Prop :=
  ∀ c, Sound g c → wp p (fun _ => Sound g) (fun _ _ => False) c

section Steady

variable {g : Screen} {α β : Type} {p : Con α} {f : α → Con β}

theorem Steady.pure (a : α) : Steady g (pure a : Con α) := fun _ h => h

theorem Steady.bind (hp : Steady g p) (hf : ∀ a, Steady g (f a)) : Steady g (p >>= f) := by
  intro c hc
  exact wp_then (hp c hc) fun a c' hc' => hf a c' hc'

theorem Steady.term {f : AnsiTerm → Con β} (hf : ∀ t, Grid g t → Steady g (f t)) :
    Steady g (Video.term >>= f) := by
  intro c hc
  exact hf c.term hc.grid c hc

theorem Steady.sub {a b : Nat} {f : Nat → Con β} (h : b ≤ a) (hf : Steady g (f (a - b))) :
    Steady g (Video.sub a b >>= f) := by
  rw [Video.sub, if_pos h]
  exact hf

theorem Steady.clamp {x lo hi : Nat} {f : Nat → Con β} (h : lo ≤ hi)
    (hf : ∀ v, lo ≤ v → v ≤ hi → Steady g (f v)) : Steady g (Video.clamp x lo hi >>= f) := by
  rw [Video.clamp, if_pos h]
  exact hf _ (by omega) (by omega)

theorem Steady.setTerm {f : AnsiTerm → AnsiTerm} (h : ∀ t, Grid g t → Grid g (f t)) :
    Steady g (Video.setTerm f) := by
  intro c hc
  exact ⟨h c.term hc.grid, hc.confined⟩

theorem Steady.access {a : Access} (h : ∀ pages, a.Within g pages) : Steady g (Video.access a) := by
  intro c hc
  refine ⟨hc.grid, fun b hb => ?_⟩
  rcases List.mem_cons.mp hb with rfl | hb
  · exact h _
  · exact hc.confined b hb

theorem Steady.onlyIf {q : Prop} [Decidable q] {p : Con Unit} (hp : q → Steady g p) :
    Steady g (StateProg.onlyIf q p) := by
  intro c hc
  exact wp_onlyIf (fun hq => hp hq c hc) fun _ => hc

theorem Steady.ite {q : Prop} [Decidable q] {p p' : Con α} (hp : q → Steady g p)
    (hp' : ¬ q → Steady g p') : Steady g (if q then p else p') := by
  split
  · exact hp ‹_›
  · exact hp' ‹_›

theorem Steady.forUpTo {body : Nat → Con Unit} {n i : Nat}
    (h : ∀ j, i ≤ j → j < i + n → Steady g (body j)) : Steady g (StateProg.forUpTo n i body) := by
  intro c hc
  exact wp_forUpTo (fun _ => Sound g) n i c hc fun j t h1 h2 ht => h j h1 h2 t ht

theorem Steady.param {i : Nat} {f : Nat → Con β} (h : i < 16) (hf : ∀ v, Steady g (f v)) :
    Steady g (Video.param i >>= f) := by
  refine .bind ?_ hf
  refine .term fun t _ => ?_
  simp only [AnsiTerm.param?, dif_pos h]
  exact .pure _

end Steady

/-! ## Painting -/

section Painting

variable {g : Screen}

section

variable (hg : g.InForce) (font : UInt8 → Bytes 16)
include hg

theorem putPixel_steady (x y : Nat) (color : UInt32) : Steady g (putPixel g x y color) := by
  refine .onlyIf fun h => .access fun _ => ?_
  exact hg.pixel_within h.2.1 h.2.2

theorem drawChar_steady (x y : Nat) (ch : UInt8) (fg bg : UInt32) : Steady g (drawChar font g x y ch fg bg) := by
  refine .forUpTo fun row _ _ => .forUpTo fun col _ hcol => ?_
  refine .sub ?_ (putPixel_steady hg _ _ _)
  simp only [fontW] at hcol
  omega

theorem drawCharAt_steady (row col : Nat) (ch : UInt8) : Steady g (drawCharAt font g row col ch) :=
  .term fun _ _ => drawChar_steady hg font _ _ _ _ _

theorem copyRow_steady {src dst : Nat} (hs : src < (consoleGeometry g).1)
    (hd : dst < (consoleGeometry g).1) : Steady g (copyRow g src dst) :=
  .access fun _ => ⟨hg.row_within hs, hg.row_within hd⟩

theorem clearRowBytes_steady {row : Nat} (h : row < (consoleGeometry g).1) (color : UInt32) :
    Steady g (clearRowBytes (row * (g.fb.pitch * fontH)) (g.fb.pitch * fontH) color) :=
  .access fun _ => hg.row_within h

theorem scrollUp_steady : Steady g (scrollUp g) := by
  refine .term fun t ht => .onlyIf fun _ => ?_
  have hbot : t.bot < (consoleGeometry g).1 := ht.rows ▸ ht.bot_lt
  refine .bind (.forUpTo fun row _ hrow => ?_) fun _ => clearRowBytes_steady hg hbot _
  exact copyRow_steady hg (by omega) (by omega)

theorem scrollDown_steady : Steady g (scrollDown g) := by
  refine .term fun t ht => .onlyIf fun _ => ?_
  have hbot : t.bot < (consoleGeometry g).1 := ht.rows ▸ ht.bot_lt
  have htop := ht.top_le
  refine .bind (.forUpTo fun k _ hk => ?_) fun _ => clearRowBytes_steady hg (by omega) _
  refine .sub (by omega) (.sub (by omega) ?_)
  exact copyRow_steady hg (by omega) (by omega)

theorem clearRow_steady {row : Nat} (h : row < (consoleGeometry g).1) : Steady g (clearRow g row) := by
  refine .term fun t _ => .ite (fun _ => ?_) fun _ => ?_
  · rw [Nat.mul_assoc]
    exact clearRowBytes_steady hg h _
  · exact .forUpTo fun _ _ _ => .forUpTo fun _ _ _ => putPixel_steady hg _ _ _

theorem eraseLine_steady (mode : Nat) : Steady g (eraseLine font g mode) := by
  refine .term fun t ht => ?_
  have hrows := hg.rows_le
  have hrow : t.curRow < (consoleGeometry g).1 := ht.rows ▸ ht.row_lt
  refine .bind (.forUpTo fun x _ _ => ?_) fun _ => ?_
  · -- The cursor row begins above the lower edge of the screen.
    refine .sub (by rw [fontH]; omega) ?_
    exact .forUpTo fun _ _ _ => putPixel_steady hg _ _ _
  · exact .onlyIf fun _ => drawCharAt_steady hg font _ _ _

theorem eraseDisplay_steady (mode : Nat) : Steady g (eraseDisplay font g mode) := by
  refine .term fun t ht => ?_
  have hrows := ht.rows
  have hrow := ht.row_lt
  split
  · refine .bind (eraseLine_steady hg font _) fun _ => .forUpTo fun row _ hj => ?_
    exact clearRow_steady hg (by omega)
  · refine .bind (eraseLine_steady hg font _) fun _ => .forUpTo fun row _ hj => ?_
    exact clearRow_steady hg (by omega)
  · exact .forUpTo fun row _ hj => clearRow_steady hg (by omega)

end

end Painting

/-! ## The cursor -/

section Cursor

variable {g : Screen} {f : AnsiTerm → Nat}

theorem setState_steady (s : ParseState) : Steady g (setState s) := .setTerm fun _ h => { h with }

theorem saveCursor_steady : Steady g saveCursor := .setTerm fun _ h => { h with }

theorem setCol_steady (h : ∀ t, Grid g t → f t < (consoleGeometry g).2) :
    Steady g (setTerm fun t => { t with curCol := f t }) :=
  .setTerm fun t ht => { ht with col_lt := ht.cols ▸ h t ht }

theorem setRow_steady (h : ∀ t, Grid g t → f t < (consoleGeometry g).1) :
    Steady g (setTerm fun t => { t with curRow := f t }) :=
  .setTerm fun t ht => { ht with row_lt := ht.rows ▸ h t ht }

theorem restoreCursor_spec {c : Console} (hgrid : Grid g c.term) : wp restoreCursor
      (fun _ c' => Grid g c'.term ∧ c'.accesses = c.accesses ∧ c'.savedPages = c.savedPages)
      (fun _ _ => False) c := by
  have hrow := hgrid.row_lt
  have hcol := hgrid.col_lt
  unfold restoreCursor
  show wp (sub c.term.rows 1 >>= _) _ _ c
  rw [sub, if_pos (by omega)]
  show wp (sub c.term.cols 1 >>= _) _ _ c
  rw [sub, if_pos (by omega)]
  refine ⟨{ hgrid with row_lt := ?_, col_lt := ?_ }, rfl, rfl⟩
  · show min c.term.saveRow (c.term.rows - 1) < c.term.rows
    omega
  · show min c.term.saveCol (c.term.cols - 1) < c.term.cols
    omega

theorem restoreCursor_steady : Steady g restoreCursor := by
  intro c hc
  refine wp_imp (restoreCursor_spec hc.grid) fun _ c' h => ⟨h.1, ?_⟩
  obtain ⟨-, hacc, hpages⟩ := h
  rw [Console.Confined, hacc, hpages]
  exact hc.confined

theorem Steady.step {p : AnsiTerm → Con Unit}
    (hp : ∀ c, Sound g c → wp (p c.term) (fun _ => Sound g) (fun _ _ => False) c) :
    Steady g (Video.term >>= p) := by
  intro c hc
  exact hp c hc

theorem index_steady (hg : g.InForce) : Steady g (index g) := by
  have h1 := one_le_rows g
  refine .step fun c hc => ?_
  have hrows := hc.grid.rows
  split
  · exact scrollUp_steady hg c hc
  · rw [sub, if_pos (by omega)]
    refine wp_onlyIf (fun hlt => ?_) fun _ => hc
    obtain ⟨hgrid, hconf⟩ := hc
    refine ⟨{ hgrid with row_lt := ?_ }, hconf⟩
    show c.term.curRow + 1 < c.term.rows
    omega

theorem reverseIndex_steady (hg : g.InForce) : Steady g (reverseIndex g) := by
  refine .term fun t ht => .ite (fun _ => scrollDown_steady hg) fun _ => ?_
  refine .onlyIf fun hpos => .sub (by omega) (setRow_steady fun t' ht' => ?_)
  have := ht.row_lt
  have := ht.rows
  omega

theorem printChar_steady (hg : g.InForce) (font : UInt8 → Bytes 16) (ch : UInt8) :
    Steady g (printChar font g ch) := by
  have hcols := one_le_cols g
  refine .term fun t _ => .bind (drawCharAt_steady hg font _ _ _) fun _ => ?_
  -- Between the two updates the column may be one past the last.
  intro c hc
  obtain ⟨hgrid, hconf⟩ := hc
  show wp (onlyIf (c.term.cols ≤ c.term.curCol + 1) _) _ _ _
  refine wp_onlyIf (fun _ => ?_) fun hlt => ?_
  · rw [wp_bind]
    refine index_steady hg _ ⟨?_, hconf⟩
    refine { hgrid with col_lt := ?_ }
    show 0 < c.term.cols
    rw [hgrid.cols]
    omega
  · refine ⟨{ hgrid with col_lt := ?_ }, hconf⟩
    show c.term.curCol + 1 < c.term.cols
    omega

end Cursor

/-! ## Colours -/

section Colors

variable {g : Screen}

theorem recolor_steady {α : Type} {f : AnsiTerm → AnsiTerm} {a : α}
    (h : ∀ t, ∃ fg bg reverse, f t = { t with fg := fg, bg := bg, reverse := reverse }) :
    Steady g (setTerm f >>= fun _ => (pure a : Con α)) := by
  refine .bind (.setTerm fun t ht => ?_) fun _ => .pure a
  obtain ⟨fg, bg, reverse, heq⟩ := h t
  rw [heq]
  exact { ht with }

theorem palette256_steady (index : Nat) : Steady g (palette256 index) := by
  refine .ite (fun _ => .pure _) fun h1 => ?_
  refine .ite (fun _ => .sub (by omega) (.pure _)) fun h2 => ?_
  refine .ite (fun _ => .sub (by omega) (.pure _)) fun h3 => ?_
  refine .ite (fun _ => .sub (by omega) (.pure _)) fun h4 => ?_
  exact .pure _

theorem extendedColor_steady {start n : Nat} (hn : n ≤ 16) : Steady g (extendedColor start n) := by
  refine .term fun t _ => ?_
  split
  · exact .pure _
  refine .ite (fun h => ?_) fun _ => .ite (fun h => ?_) fun _ => .pure _
  · refine .param (by omega) fun v => ?_
    exact .bind (palette256_steady v) fun _ => .pure _
  · refine .param (by omega) fun r => ?_
    refine .param (by omega) fun _ => ?_
    exact .param (by omega) fun _ => .pure _

theorem sgrRound_steady {n i : Nat} (hn : n ≤ 16) (hi : i < n) : Steady g (sgrRound n i) := by
  refine .param (by omega) fun v => ?_
  refine .ite (fun _ => ?_) fun _ => .ite (fun _ => ?_) fun _ => .ite (fun _ => ?_) fun _ =>
    .ite (fun _ => ?_) fun _ => .ite (fun _ => ?_) fun _ => .ite (fun _ => ?_) fun _ =>
    .ite (fun _ => ?_) fun _ => .ite (fun _ => ?_) fun _ => .ite (fun _ => ?_) fun _ =>
    .pure _
  · exact recolor_steady fun t => ⟨_, _, _, rfl⟩
  · exact recolor_steady fun t => ⟨_, _, _, rfl⟩
  · refine .sub (by omega) ?_
    exact recolor_steady fun t => ⟨_, _, _, rfl⟩
  · exact recolor_steady fun t => ⟨_, _, _, rfl⟩
  · refine .sub (by omega) ?_
    exact recolor_steady fun t => ⟨_, _, _, rfl⟩
  · exact recolor_steady fun t => ⟨_, _, _, rfl⟩
  · refine .sub (by omega) ?_
    exact recolor_steady fun t => ⟨_, _, _, rfl⟩
  · refine .sub (by omega) ?_
    exact recolor_steady fun t => ⟨_, _, _, rfl⟩
  · refine .bind (extendedColor_steady hn) fun r => ?_
    split
    · exact .pure _
    · refine recolor_steady fun t => ?_
      by_cases h38 : v = 38
      · exact ⟨_, _, _, if_pos h38⟩
      · exact ⟨_, _, _, if_neg h38⟩

/-- Each round goes on by at least one parameter, so the loop ends. -/
theorem sgrLoop_steady {n : Nat} (hn : n ≤ 16) : ∀ {fuel i : Nat}, n ≤ i + fuel → Steady g (sgrLoop n fuel i)
  | 0, _, h => .onlyIf fun hi => absurd hi (by omega)
  | fuel + 1, i, h => by
    refine .onlyIf fun hi => .bind (sgrRound_steady hn hi) fun r => ?_
    cases r with
    | none => exact .pure _
    | some used => exact sgrLoop_steady hn (by omega)

theorem sgr_steady : Steady g sgr := .term fun _ _ => sgrLoop_steady (by omega) (by omega)

end Colors

/-! ## Escape sequences -/

section Parser

variable {g : Screen}

theorem dispatchCsi_steady (hg : g.InForce) (font : UInt8 → Bytes 16) {cmd : UInt8}
    (hcmd : ∀ enable, command cmd ≠ .mode enable) : Steady g (dispatchCsi font g cmd) := by
  have hrows := one_le_rows g
  have hcols := one_le_cols g
  refine .term fun t ht => ?_
  have htop : t.top ≤ t.bot := ht.top_le
  have hbot : t.bot < (consoleGeometry g).1 := ht.rows ▸ ht.bot_lt
  rw [ht.rows, ht.cols]
  split
  · exact setRow_steady fun t ht => by
      have := ht.row_lt
      have := ht.top_le
      have := ht.bot_lt
      have := ht.rows
      omega
  · exact setRow_steady fun t ht => by
      have := ht.bot_lt
      have := ht.rows
      omega
  · exact .sub hcols (setCol_steady fun t _ => by omega)
  · exact setCol_steady fun t ht => by
      have := ht.col_lt
      have := ht.cols
      omega
  · exact .sub hcols (setCol_steady fun t _ => by omega)
  · exact .sub hrows (.clamp htop fun v _ hv => setRow_steady fun _ _ => by omega)
  · refine .sub hrows (.sub hcols (.clamp htop fun v _ hv => ?_))
    refine .setTerm fun t' ht' => ⟨ht'.rows, ht'.cols, ht'.top_le, ht'.bot_lt, ?_, ?_⟩
    · show v < t'.rows
      rw [ht'.rows]
      omega
    · show min (t'.p 1 1 - 1) _ < t'.cols
      rw [ht'.cols]
      omega
  · exact .param (by omega) fun mode => eraseDisplay_steady hg font mode
  · exact .param (by omega) fun mode => eraseLine_steady hg font mode
  · exact saveCursor_steady
  · exact restoreCursor_steady
  · rename_i enable heq
    exact absurd heq (hcmd enable)
  · exact sgr_steady
  · refine .sub hrows (.onlyIf fun hlt => .setTerm fun t' ht' => ?_)
    have hrows' := ht'.rows
    refine ⟨ht'.rows, ht'.cols, Nat.le_of_lt hlt, ?_, ?_, ?_⟩
    · show min _ _ < t'.rows
      omega
    · show min _ _ < t'.rows
      omega
    · show 0 < t'.cols
      rw [ht'.cols]
      omega
  · exact .forUpTo fun _ _ _ => scrollUp_steady hg
  · exact .forUpTo fun _ _ _ => reverseIndex_steady hg
  · exact .pure _

theorem escByte_steady (hg : g.InForce) (c : UInt8) : Steady g (escByte g c) := by
  have hcols := one_le_cols g
  have hend : ∀ {p : Con Unit}, Steady g p → Steady g (p >>= fun _ => setState .ground) := fun hp =>
    .bind hp fun _ => setState_steady _
  refine .ite (fun _ => ?_) fun _ => .ite (fun _ => ?_) fun _ => .ite (fun _ => ?_) fun _ =>
    .ite (fun _ => ?_) fun _ => .ite (fun _ => ?_) fun _ => .ite (fun _ => ?_) fun _ =>
    setState_steady _
  · exact .setTerm fun _ h => { h with }
  · exact hend saveCursor_steady
  · exact hend restoreCursor_steady
  · exact hend (reverseIndex_steady hg)
  · exact hend (index_steady hg)
  · exact .bind (setCol_steady fun _ _ => by omega) fun _ => hend (index_steady hg)

theorem groundByte_steady (hg : g.InForce) (font : UInt8 → Bytes 16) (c : UInt8) :
    Steady g (groundByte font g c) := by
  have hcols := one_le_cols g
  refine .ite (fun _ => ?_) fun _ => .ite (fun _ => ?_) fun _ => .ite (fun _ => ?_) fun _ =>
    .ite (fun _ => ?_) fun _ => .ite (fun _ => ?_) fun _ => .ite (fun _ => ?_) fun _ =>
    printChar_steady hg font c
  · exact setState_steady _
  · exact .bind (index_steady hg) fun _ => setCol_steady fun _ _ => by omega
  · exact setCol_steady fun _ _ => by omega
  · refine .term fun t ht => ?_
    rw [ht.cols]
    exact .sub hcols (setCol_steady fun _ _ => by omega)
  · exact setCol_steady fun t ht => by
      have := ht.col_lt
      have := ht.cols
      omega
  · exact .pure _

end Parser

end Video
