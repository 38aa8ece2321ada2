import OnyxKernel.Video.AnsiSafe

/-!
# The saved screen, and whole runs of the console

`ensure_saved` allocates the page run of the saved screen once, for the surface of that moment. Every later
switch copies as many bytes as the surface of its own moment has, so it stays inside the run exactly if the
surface has not outgrown it. All other bytes are safe from any state, which gives the equivalence for runs.
-/

namespace Video

open Infra Mm StateProg

/-! ## The saved screen -/

section Saved

variable {g : Screen} {c : Console} {bytes : Nat}

def Console.HasRun (c : Console) (bytes : Nat) : Prop := freeRun c.mm (pagesFor bytes) c.mm.total 0 0 0 ≠ none

/-- A saved screen of the size of the present surface fits the page run, if there is one to go on with. -/
def Console.EnterFits (c : Console) (bytes : Nat) : Prop :=
  c.savePa ≠ 0 → c.HasRun bytes → bytes ≤ c.savedPages * 4096

theorem wp_onPages {α : Type} {p : MmProg α} {Q : Option α → Console → Prop} {E : Stop → Console → Prop} :
    wp (onPages p) Q E c ↔
      wp p (fun a mm => Q (some a) { c with mm := mm }) (fun _ mm => Q none { c with mm := mm }) c.mm := by
  simp only [wp, onPages]
  cases p.run c.mm with
  | mk r mm => cases r <;> rfl

theorem allocN_cases (c : Console) (bytes : Nat) :
    wp (allocN (pagesFor bytes)) (fun _ _ => c.HasRun bytes) (fun _ _ => c.HasRun bytes → bytes = 0) c.mm := by
  simp only [wp, allocN, Console.HasRun]
  by_cases hn : pagesFor bytes = 0
  · rw [if_pos hn]
    intro _
    unfold pagesFor at hn
    omega
  · rw [if_neg hn]
    cases hrun : freeRun c.mm (pagesFor bytes) c.mm.total 0 0 0 with
    | none => exact fun h => absurd rfl h
    | some i => exact Option.some_ne_none i

theorem ensureSaved_spec (bytes : Nat) (c : Console) : wp (ensureSaved bytes)
      (fun pa c' => c'.term = c.term ∧ c'.accesses = c.accesses ∧
        (pa = 0 ∧ c.EnterFits bytes ∨
          pa ≠ 0 ∧ (bytes ≤ c'.savedPages * 4096 ↔ c.EnterFits bytes)))
      (fun _ _ => False) c := by
  unfold ensureSaved
  rw [wp_bind, wp_onPages]
  refine wp_mono (allocN_cases c bytes) (fun pa mm hrun => ?_) fun _ mm hnone => ?_
  · show wp (if c.savePa = 0 then _ else _) _ _ _
    by_cases hsave : c.savePa = 0
    · -- The new run becomes the saved screen.
      have hfits : c.EnterFits bytes := fun h => absurd hsave h
      rw [if_pos hsave]
      refine ⟨rfl, rfl, ?_⟩
      by_cases hpa : pa = 0
      · exact .inl ⟨hpa, hfits⟩
      · exact .inr ⟨hpa, iff_of_true (le_pagesFor bytes) hfits⟩
    · -- The run that is there is used, whatever its size.
      rw [if_neg hsave, wp_bind, wp_onPages]
      refine wp_imp (free_spec mm pa) fun _ _ _ => ?_
      exact ⟨rfl, rfl, .inr ⟨hsave, fun h _ _ => h, fun h => h hsave hrun⟩⟩
  · refine ⟨rfl, rfl, .inl ⟨rfl, fun _ hrun => ?_⟩⟩
    rw [hnone hrun]
    exact Nat.zero_le _

/-- Entering the other screen keeps the grid, and its copy fits or not as the state before says. -/
theorem enterAlt_spec (hgrid : Grid g c.term) (hacc : c.accesses = []) :
    wp (enterAlt g)
      (fun _ c' => Grid g c'.term ∧
        (c'.Confined g ↔ ∀ bytes, surface g = some bytes → c.EnterFits bytes))
      (fun _ _ => False) c := by
  have hrow := hgrid.row_lt
  have hcol := hgrid.col_lt
  unfold enterAlt
  cases hsurf : surface g with
  | none =>
    refine ⟨hgrid, iff_of_true (fun a ha => ?_) fun _ h => nomatch h⟩
    rw [hacc] at ha
    cases ha
  | some bytes =>
    have hfits : (∀ b, some bytes = some b → c.EnterFits b) ↔ c.EnterFits bytes :=
      ⟨fun h => h bytes rfl, fun h b hb => Option.some.inj hb ▸ h⟩
    refine wp_then (ensureSaved_spec bytes c) fun pa c' h => ?_
    obtain ⟨hterm, hacc', ⟨hpa, hfit⟩ | ⟨hpa, hiff⟩⟩ := h
    · refine wp_onlyIf (fun hne => absurd hpa hne) fun _ => ?_
      refine ⟨hterm ▸ hgrid, iff_of_true (fun a ha => ?_) (hfits.mpr hfit)⟩
      rw [hacc', hacc] at ha
      cases ha
    · refine wp_onlyIf (fun _ => ?_) fun hn => absurd hpa hn
      rw [hfits, ← hiff]
      rw [← hterm] at hgrid hrow hcol
      refine ⟨{ hgrid with row_lt := ?_, col_lt := ?_ }, ?_⟩
      · show 0 < c'.term.rows
        omega
      · show 0 < c'.term.cols
        omega
      · show (∀ a ∈ Access.paint ⟨.surface, 0, bytes⟩ _ ::
            .copy ⟨.surface, 0, bytes⟩ ⟨.saved, 0, bytes⟩ :: c'.accesses, a.Within g c'.savedPages) ↔ _
        simp [hacc', hacc, Access.Within, Span.Within, surface_le hsurf]

theorem exitAlt_spec (hgrid : Grid g c.term) (hacc : c.accesses = []) : wp (exitAlt g)
      (fun _ c' => Grid g c'.term ∧
        (c'.Confined g ↔ ∀ bytes, surface g = some bytes → c.savePa ≠ 0 → bytes ≤ c.savedPages * 4096))
      (fun _ _ => False) c := by
  have hnone : c.Confined g := fun a ha => by
    rw [hacc] at ha
    cases ha
  unfold exitAlt
  cases hsurf : surface g with
  | none => exact ⟨hgrid, iff_of_true hnone fun _ h => nomatch h⟩
  | some bytes =>
    refine wp_onlyIf (fun hpa => ?_) fun hpa => ?_
    · refine wp_imp (restoreCursor_spec (g := g) ?_) fun _ c' h => ⟨h.1, ?_⟩
      · exact hgrid
      obtain ⟨-, hacc', hpages⟩ := h
      rw [Console.Confined, hacc', hpages]
      simp [hacc, Access.Within, Span.Within, surface_le hsurf, hpa]
    · exact ⟨hgrid, iff_of_true hnone fun _ _ h => absurd h hpa⟩

/-- The byte switches to the other screen (`true`) or back. -/
def AnsiTerm.switches (t : AnsiTerm) (b : UInt8) : Option Bool :=
  if t.state = .csi ∧ t.privateMarker = true ∧ t.params 0 = 1049 then
    match command b with
    | .mode enable => some enable
    | _ => none
  else none

/-- The page run of the saved screen is large enough for the present surface, if the byte makes the console
copy between the two. -/
def Console.Fits (c : Console) (g : Screen) (b : UInt8) : Prop :=
  ∀ enable bytes, c.term.switches b = some enable → surface g = some bytes → c.savePa ≠ 0 →
    (enable = true → c.HasRun bytes) → bytes ≤ c.savedPages * 4096

theorem command_mode {b : UInt8} {enable : Bool} (h : command b = .mode enable) :
    b = 'h'.toUInt8 ∨ b = 'l'.toUInt8 := by
  unfold command at h
  cases hl : commands.lookup b with
  | none =>
    rw [hl] at h
    cases h
  | some x =>
    rw [hl] at h
    obtain rfl : x = .mode enable := h
    obtain ⟨l₁, l₂, hsplit, -⟩ := List.lookup_eq_some_iff.mp hl
    have hmem : (b, Command.mode enable) ∈ commands := hsplit ▸ List.mem_append_right _ List.mem_cons_self
    simp only [commands, List.mem_cons, Prod.mk.injEq, List.not_mem_nil, reduceCtorEq, and_false,
      false_or, or_false] at hmem
    exact hmem.imp (·.1) (·.1)

/-- What a byte leaves: the grid in order, and its accesses inside their areas if the saved screen fits. -/
def Settled (g : Screen) (fits : Prop) (c : Console) : Prop := Grid g c.term ∧ (c.Confined g ↔ fits)

theorem Steady.settled {p : Con Unit} {fits : Prop} (hp : Steady g p) (hgrid : Grid g c.term)
    (hacc : c.accesses = []) (hfits : fits) : wp p (fun _ => Settled g fits) (fun _ _ => False) c := by
  have hc : Sound g c := ⟨hgrid, fun a ha => by rw [hacc] at ha; cases ha⟩
  exact wp_imp (hp c hc) fun _ c' h => ⟨h.grid, iff_of_true h.confined hfits⟩

theorem setPrivateMode_settled {b : UInt8} {enable : Bool} (hgrid : Grid g c.term)
    (hacc : c.accesses = []) (hcsi : c.term.state = .csi) (hmark : c.term.privateMarker = true)
    (hcmd : command b = .mode enable) :
    wp (setPrivateMode g (c.term.params 0) enable) (fun _ => Settled g (c.Fits g b)) (fun _ _ => False) c := by
  have hswitch : c.term.switches b = if c.term.params 0 = 1049 then some enable else none := by
    simp [AnsiTerm.switches, hcsi, hmark, hcmd]
  unfold setPrivateMode
  by_cases h1049 : c.term.params 0 = 1049
  · rw [if_pos h1049] at hswitch
    rw [h1049, if_neg (by decide), if_pos rfl]
    cases enable with
    | true =>
      refine wp_imp (enterAlt_spec hgrid hacc) fun _ c' h => ⟨h.1, h.2.trans ⟨?_, ?_⟩⟩
      · intro hfit e bytes he hs hpa hrun
        rw [hswitch] at he
        exact hfit bytes hs hpa (hrun (Option.some.inj he).symm)
      · intro hfit bytes hs hpa hrun
        exact hfit true bytes hswitch hs hpa fun _ => hrun
    | false =>
      refine wp_imp (exitAlt_spec hgrid hacc) fun _ c' h => ⟨h.1, h.2.trans ⟨?_, ?_⟩⟩
      · intro hfit e bytes _ hs hpa _
        exact hfit bytes hs hpa
      · intro hfit bytes hs hpa
        exact hfit false bytes hswitch hs hpa fun h => nomatch h
  · have hfits : c.Fits g b := fun e bytes he => by
      rw [hswitch, if_neg h1049] at he
      cases he
    rw [if_neg h1049]
    refine Steady.settled (Steady.ite (fun _ => ?_) fun _ => Steady.pure _) hgrid hacc hfits
    exact Steady.setTerm fun _ h => { h with }

theorem switches_eq_none {t : AnsiTerm} {b : UInt8} (h : ∀ enable, command b ≠ .mode enable) :
    t.switches b = none := by
  unfold AnsiTerm.switches
  split
  · split
    · rename_i enable heq
      exact absurd heq (h enable)
    · rfl
  · rfl

section

variable (hg : g.InForce) (font : UInt8 → Bytes 16) (b : UInt8)
    (hgrid : Grid g c.term) (hacc : c.accesses = []) (hcsi : c.term.state = .csi)
include hg font b hgrid hacc hcsi

theorem dispatchCsi_settled :
    wp (dispatchCsi font g b) (fun _ => Settled g (c.Fits g b)) (fun _ _ => False) c := by
  by_cases hmode : ∃ enable, command b = .mode enable
  · obtain ⟨enable, hcmd⟩ := hmode
    unfold dispatchCsi
    rw [wp_bind, hcmd]
    refine wp_onlyIf (fun hmark => setPrivateMode_settled hgrid hacc hcsi hmark hcmd) fun hmark => ?_
    refine ⟨hgrid, iff_of_true (fun a ha => ?_) fun e bytes he => ?_⟩
    · rw [hacc] at ha
      cases ha
    · rw [AnsiTerm.switches, if_neg fun h => hmark h.2.1] at he
      cases he
  · rw [not_exists] at hmode
    refine (dispatchCsi_steady hg font hmode).settled hgrid hacc fun e bytes he => ?_
    rw [switches_eq_none hmode] at he
    cases he

theorem csiByte_settled :
    wp (csiByte font g b) (fun _ => Settled g (c.Fits g b)) (fun _ _ => False) c := by
  -- A byte that is no command leaves the grid alone and switches nothing.
  have hparam : ¬ (0x40 ≤ b ∧ b ≤ 0x7e) → c.Fits g b := fun hb e bytes he => by
    rw [switches_eq_none fun enable hcmd => hb ?_] at he
    · cases he
    · rcases command_mode hcmd with rfl | rfl <;> decide
  have hsame : ∀ {f : AnsiTerm → AnsiTerm},
      (∀ t, ∃ ps n m, f t = { t with params := ps, nparams := n, privateMarker := m }) →
      ¬ (0x40 ≤ b ∧ b ≤ 0x7e) →
      wp (setTerm f) (fun _ => Settled g (c.Fits g b)) (fun _ _ => False) c := by
    intro f hf hb
    refine (Steady.setTerm fun t ht => ?_).settled hgrid hacc (hparam hb)
    obtain ⟨ps, n, m, heq⟩ := hf t
    rw [heq]
    exact { ht with }
  unfold csiByte
  split
  · rename_i hdigit
    refine hsame (fun t => ⟨_, _, _, rfl⟩) fun hb => ?_
    exact absurd (UInt8.le_trans hb.1 hdigit.2) (by decide)
  split
  · rename_i hsemi
    exact hsame (fun t => ⟨_, _, _, rfl⟩) (by rw [hsemi]; decide)
  split
  · rename_i hquestion
    exact hsame (fun t => ⟨_, _, _, rfl⟩) (by rw [hquestion]; decide)
  refine wp_onlyIf (fun _ => ?_) fun hb => ?_
  · refine wp_then (dispatchCsi_settled hg font b hgrid hacc hcsi) fun _ c' h => ?_
    exact ⟨{ h.1 with }, h.2⟩
  · refine (Steady.pure ()).settled hgrid hacc (hparam hb)

end

def Console.regrid (c : Console) (rows cols top bot curRow curCol : Nat) : Console :=
  { c with term := { c.term with
      rows := rows, cols := cols, top := top, bot := bot, curRow := curRow, curCol := curCol } }

theorem setBot_spec {q : Prop} [Decidable q] {rows : Nat} (h : 1 ≤ rows) (c : Console)
    (cols top bot curRow curCol : Nat) :
    wp (onlyIf q (sub rows 1 >>= fun last => setTerm fun t => { t with bot := last }))
      (fun _ c' => ∃ bot', c' = c.regrid rows cols top bot' curRow curCol ∧
        (q → bot' = rows - 1) ∧ (¬ q → bot' = bot))
      (fun _ _ => False) (c.regrid rows cols top bot curRow curCol) := by
  rw [sub, if_pos h]
  refine wp_onlyIf (fun hq => ?_) fun hq => ?_
  · exact ⟨rows - 1, rfl, fun _ => rfl, fun hn => absurd hq hn⟩
  · exact ⟨bot, rfl, fun h => absurd h hq, fun _ => rfl⟩

theorem syncSize_spec (g : Screen) (c : Console) : wp (syncSize g)
      (fun _ c' => Grid g c'.term ∧ ∃ rows cols top bot curRow curCol,
        c' = c.regrid rows cols top bot curRow curCol)
      (fun _ _ => False) c := by
  have hrows := one_le_rows g
  have hcols := one_le_cols g
  unfold syncSize
  rw [wp_bind]
  show wp (setTerm _ >>= _) _ _ c
  show wp (onlyIf (c.term.top = 0 ∧ c.term.bot + 1 = c.term.rows) _ >>= _) _ _
    (c.regrid (consoleGeometry g).1 (consoleGeometry g).2 c.term.top c.term.bot c.term.curRow c.term.curCol)
  refine wp_then (setBot_spec hrows ..) fun _ c₁ h₁ => ?_
  obtain ⟨bot₁, rfl, -, -⟩ := h₁
  show wp (onlyIf ((consoleGeometry g).1 ≤ bot₁) _ >>= _) _ _
    (c.regrid (consoleGeometry g).1 (consoleGeometry g).2 c.term.top bot₁ c.term.curRow c.term.curCol)
  refine wp_then (setBot_spec hrows ..) fun _ c₂ h₂ => ?_
  obtain ⟨bot, rfl, hset, hkeep⟩ := h₂
  -- Whatever the region was, its bottom is now on the screen.
  have hbot : bot < (consoleGeometry g).1 := by
    by_cases hge : (consoleGeometry g).1 ≤ bot₁
    · rw [hset hge]
      omega
    · rw [hkeep hge]
      omega
  have htop : (if bot < c.term.top then bot else c.term.top) ≤ bot := by
    split <;> omega
  show wp (clamp c.term.curRow (if bot < c.term.top then bot else c.term.top) bot >>= _) _ _
    (c.regrid (consoleGeometry g).1 (consoleGeometry g).2 (if bot < c.term.top then bot else c.term.top) bot
      c.term.curRow c.term.curCol)
  generalize (if bot < c.term.top then bot else c.term.top) = top at htop
  rw [clamp, if_pos htop]
  show wp (sub (consoleGeometry g).2 1 >>= _) _ _ (c.regrid _ _ _ _ _ _)
  rw [sub, if_pos hcols]
  refine ⟨⟨rfl, rfl, htop, hbot, ?_, ?_⟩, _, _, _, _, _, _, rfl⟩
  · show max top (min c.term.curRow bot) < (consoleGeometry g).1
    omega
  · show min c.term.curCol ((consoleGeometry g).2 - 1) < (consoleGeometry g).2
    omega

theorem putc_settled (hg : g.InForce) (font : UInt8 → Bytes 16) (b : UInt8) (hacc : c.accesses = []) :
    wp (putc font g b) (fun _ => Settled g (c.Fits g b)) (fun _ _ => False) c := by
  refine wp_then (syncSize_spec g c) fun _ c' h => ?_
  obtain ⟨hgrid, rows, cols, top, bot, curRow, curCol, hc'⟩ := h
  have hacc' : c'.accesses = [] := by rw [hc', ← hacc]; rfl
  have hfits : c'.Fits g b = c.Fits g b := by rw [hc']; rfl
  rw [← hfits]
  rw [wp_bind, term, wp_gets]
  have hother : c'.term.state ≠ .csi → c'.Fits g b := fun hne enable bytes hsw => by
    rw [AnsiTerm.switches, if_neg fun h => hne h.1] at hsw
    cases hsw
  cases hs : c'.term.state with
  | ground => exact (groundByte_steady hg font b).settled hgrid hacc' (hother (by rw [hs]; decide))
  | esc => exact (escByte_steady hg b).settled hgrid hacc' (hother (by rw [hs]; decide))
  | csi => exact csiByte_settled hg font b hgrid hacc' hs

end Saved

/-! ## Runs -/

/-- The byte is taken without a stop, leaves the grid in order, and reads and writes only inside the two
areas. -/
def SafeAt (font : UInt8 → Bytes 16) (c : Console) : Action → Prop
  | .putc g b => ∃ c', (console font).step c (.putc g b) = some c' ∧ Grid g c'.term ∧ c'.Confined g
  | .elsewhere _ => True

def FitsAt (c : Console) : Action → Prop
  | .putc g b => c.Fits g b
  | .elsewhere _ => True

def Action.InForce : Action → Prop
  | .putc g _ => g.InForce
  | .elsewhere _ => True

theorem safeAt_iff (font : UInt8 → Bytes 16) (c : Console) {a : Action} (ha : a.InForce) :
    SafeAt font c a ↔ FitsAt c a := by
  cases a with
  | elsewhere mm => exact Iff.rfl
  | putc g b =>
    obtain ⟨_, c', hrun, hgrid, hconf⟩ := (putc_settled (c := { c with accesses := [] }) ha font b rfl).returned
    have hstep : (console font).step c (.putc g b) = some c' := by
      simp only [console, hrun]
    constructor
    · rintro ⟨c'', hstep', -, hc''⟩
      rw [hstep, Option.some.injEq] at hstep'
      subst hstep'
      exact hconf.mp hc''
    · intro hfits
      exact ⟨c', hstep, hgrid, hconf.mpr hfits⟩

/-- Console output stays inside the surface and the page run of the saved screen exactly as long as every
switch between the screens finds a page run that holds the surface of its moment. -/
theorem console_safe_iff (font : UInt8 → Bytes 16) (mm : MmState) {as : List Action}
    (h : ∀ a ∈ as, a.InForce) :
    (console font).Along (SafeAt font) (.boot mm) as ↔ (console font).Along FitsAt (.boot mm) as :=
  Machine.along_congr fun c a ha => safeAt_iff font c (h a ha)

section Examples

instance (g : Screen) (t : AnsiTerm) : Decidable (Grid g t) :=
  decidable_of_iff
    (t.rows = (consoleGeometry g).1 ∧ t.cols = (consoleGeometry g).2 ∧ t.top ≤ t.bot ∧ t.bot < t.rows ∧
      t.curRow < t.rows ∧ t.curCol < t.cols)
    ⟨fun ⟨h1, h2, h3, h4, h5, h6⟩ => ⟨h1, h2, h3, h4, h5, h6⟩,
      fun ⟨h1, h2, h3, h4, h5, h6⟩ => ⟨h1, h2, h3, h4, h5, h6⟩⟩

instance (font : UInt8 → Bytes 16) (c : Console) : (a : Action) → Decidable (SafeAt font c a)
  | .elsewhere _ => .isTrue trivial
  | .putc g b =>
    match h : (console font).step c (.putc g b) with
    | none => .isFalse fun ⟨_, hc', _⟩ => by rw [h] at hc'; cases hc'
    | some c' =>
      decidable_of_iff (Grid g c'.term ∧ ∀ a ∈ c'.accesses, a.Within g c'.savedPages)
        ⟨fun hc => ⟨c', h, hc⟩, fun ⟨c'', hc'', hrest⟩ => by
          rw [h, Option.some.injEq] at hc''
          subst hc''
          exact hrest⟩

instance (c : Console) (g : Screen) (b : UInt8) : Decidable (c.Fits g b) :=
  match hs : c.term.switches b, hb : surface g with
  | none, _ => .isTrue fun _ _ h => by rw [hs] at h; cases h
  | _, none => .isTrue fun _ _ _ h => by rw [hb] at h; cases h
  | some enable, some bytes =>
    decidable_of_iff
      (c.savePa ≠ 0 → (enable = true → freeRun c.mm (pagesFor bytes) c.mm.total 0 0 0 ≠ none) →
        bytes ≤ c.savedPages * 4096)
      ⟨fun h e n he hn => by
        rw [hs, Option.some.injEq] at he
        rw [hb, Option.some.injEq] at hn
        subst he hn
        exact h, fun h => h enable bytes hs hb⟩

instance (c : Console) : (a : Action) → Decidable (FitsAt c a)
  | .elsewhere _ => .isTrue trivial
  | .putc g b => inferInstanceAs (Decidable (c.Fits g b))

def blankFont : UInt8 → Bytes 16 := fun _ => Bytes.zero

def fewPages : MmState := ⟨fun _ _ => 0, 0x80000, 8, 0, 0, []⟩

/-- One column of `rows` character cells with 16 bits a pixel. -/
def columnScreen (rows : Nat) : Screen := ⟨⟨0x90000000, 8, rows * 16, 16, 16, true⟩, 0, false⟩

def written (g : Screen) (text : List Char) : List Action := text.map fun ch => .putc g ch.toUInt8

theorem columnScreen_inForce {rows : Nat} (h : 1 ≤ rows) : (columnScreen rows).InForce :=
  ⟨Nat.le_refl 8, by show 16 ≤ rows * 16; omega, .inl rfl, by show 8 * (16 / 8) ≤ 16; decide⟩

theorem written_inForce {g : Screen} (hg : g.InForce) (text : List Char) : ∀ a ∈ written g text, a.InForce := by
  intro a ha
  obtain ⟨ch, -, rfl⟩ := List.mem_map.mp ha
  exact hg

def enterText : List Char := ['\x1b', '[', '?', '1', '0', '4', '9', 'h']

def leaveText : List Char := ['\x1b', '[', '?', '1', '0', '4', '9', 'l']

theorem console_safe_small : (console blankFont).Along (SafeAt blankFont) (.boot fewPages)
      (written (columnScreen 2) (enterText ++ ['A', '\n', 'B'] ++ leaveText)) :=
  (console_safe_iff blankFont fewPages
    (written_inForce (columnScreen_inForce (by decide)) _)).mpr (by decide +kernel)

/-- A screen of one row is saved in one page; with 17 rows in force the next switch copies 4352 bytes there. -/
theorem console_grown_unsafe :
    (∀ a ∈ written (columnScreen 1) enterText ++ written (columnScreen 17) enterText, a.InForce) ∧
      ¬ (console blankFont).Along (SafeAt blankFont) (.boot fewPages)
        (written (columnScreen 1) enterText ++ written (columnScreen 17) enterText) := by
  constructor
  · intro a ha
    rcases List.mem_append.mp ha with ha | ha
    · exact written_inForce (columnScreen_inForce (by decide)) _ a ha
    · exact written_inForce (columnScreen_inForce (by decide)) _ a ha
  · decide +kernel

end Examples

end Video
