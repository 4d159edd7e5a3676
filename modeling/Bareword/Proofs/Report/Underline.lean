import Bareword.Proofs.Text.Lines
import Bareword.Proofs.Token.Boundaries
import Bareword.Report.Render

/-! # Underlines

A notice of a span shows the line on which the span starts below up to seven lines before it, and underlines the
span on it. Ends of a span may lie anywhere: behind the line, on its line feed, past the source or inside a rune.
The underline stays on the line for all of them, and where the span is a piece of the line it is under that piece.

* `Shows`: the source lines that a notice shows.
* `locate?_of_stands`: the notice of a span that starts on some line.
* `underline_eq`: what is drawn below that line.
* `locate?_underlines`: the line, the columns and the source lines of every notice.
-/

namespace Bareword.Report.Notice
set_option autoImplicit false

/-- The lines from the seventh before a line up to that line, which is the only main one. They are shown without
the carriage returns at their ends. -/
structure Shows (lines : List Text) (line : Nat) (shown : List SourceLine) : Prop where
  numbers : shown.map (·.number) = (List.range' (max 1 (line - 7)) (line + 1 - max 1 (line - 7))).map Int.ofNat
  isMain_iff : ∀ l ∈ shown, l.isMain = true ↔ l.number = line
  text : ∀ l ∈ shown, ∃ i whole, l.number = ((i + 1 : Nat) : Int) ∧ lines[i]? = some whole ∧
    (∃ k, whole = l.text ++ List.replicate k (Text.byte '\r')) ∧ l.text.getLast? ≠ some (Text.byte '\r')

variable {source before after : Text} {above below : List Text} {start stop : Nat} {n : Notice}

theorem shows_sourceLines {lines : List Text} {last : Nat} (hlast : last < lines.length) :
    Shows lines (last + 1) (sourceLines lines (last - contextLines) last) := by
  have hmem : ∀ l ∈ sourceLines lines (last - contextLines) last, ∃ i, i ≤ last ∧ l.number = (i : Int) + 1 ∧
      l.text = Text.trimEnd (· == Text.byte '\r') (lines.getD i []) ∧ l.isMain = (i == last) := by
    intro l hl
    obtain ⟨i, hi, rfl⟩ := List.mem_map.mp hl
    rw [List.mem_range] at hi
    exact ⟨last - contextLines + i, by omega, rfl, rfl, rfl⟩
  constructor
  · have hfirst : max 1 (last + 1 - 7) = last - contextLines + 1 := by
      rw [contextLines]
      omega
    rw [hfirst, sourceLines, List.map_map, List.range'_eq_map_range, List.map_map]
    have hcount : last + 1 + 1 - (last - contextLines + 1) = last + 1 - (last - contextLines) := by omega
    rw [hcount]
    refine List.map_congr_left fun i _ => ?_
    change ((last - contextLines + i : Nat) : Int) + 1 = ((last - contextLines + 1 + i : Nat) : Int)
    omega
  · intro l hl
    obtain ⟨i, -, hnumber, -, hmain⟩ := hmem l hl
    rw [hnumber, hmain, beq_iff_eq]
    omega
  · intro l hl
    obtain ⟨i, hi, hnumber, htext, -⟩ := hmem l hl
    have hline : lines[i]? = some (lines.getD i []) := by
      rw [List.getD_eq_getElem?_getD, List.getElem?_eq_getElem (by omega)]
      rfl
    refine ⟨i, lines.getD i [], by rw [hnumber]; rfl, hline, ?_⟩
    rw [htext]
    exact Text.trimEnd_eq _ _

/-- The notice of a span that starts on a line. The underline ends on that line or right behind it, and not before it
starts. -/
theorem locate?_of_stands (hstands : source.Stands start above before after below) (hle : start ≤ stop)
    (hstart : start ≤ source.length) :
    ∃ (n : Notice) (last : Nat), locate? ⟨start, stop⟩ source = some n ∧ n.line = above.length + 1 ∧
      n.column = (min (before.runeCount + 1) ((before ++ after).runeCount + 1) : Nat) ∧
      n.endColumn = max (min last ((before ++ after).runeCount + 1) : Int) n.column ∧
      (start < stop → (Position.ofOffset source stop).line = above.length →
        last = (Position.ofOffset source stop).column) ∧
      Shows (above ++ (before ++ after) :: below) (above.length + 1) n.lines := by
  have hinside : ¬ ((start : Int) < 0 ∨ (stop : Int) < start ∨ (start : Int) > source.length) := by omega
  have hmain : (above ++ (before ++ after) :: below).getD above.length [] = before ++ after := by simp
  have hshows : Shows (above ++ (before ++ after) :: below) (above.length + 1)
      (sourceLines (above ++ (before ++ after) :: below) (above.length - contextLines) above.length) :=
    shows_sourceLines (by simp)
  rw [locate?, if_neg hinside]
  dsimp only
  rw [hstands.position hstart, hstands.lines.eq_splitOn, hmain]
  refine ⟨_, _, rfl, rfl, rfl, rfl, fun hlt hline => ?_, hshows⟩
  rw [if_pos (Int.ofNat_lt.mpr hlt), if_pos hline]

/-- Below the main line there are as many blanks as columns before the underline, and a caret for each column of it. -/
theorem underline_eq (color : Bool) (hle : n.column ≤ n.endColumn) :
    n.underline color = Text.spaces n.gutterWidth ++ paint color [.brightBlack] " | " ++
      Text.spaces (n.column - 1).toNat ++
      paint color [.brightRed] (List.replicate (n.endColumn - n.column + 1).toNat (Text.byte '^')) ++ "\n" := by
  have hcount : (if n.endColumn > n.column then (n.endColumn - n.column + 1).toNat else 1) =
      (n.endColumn - n.column + 1).toNat := by
    split <;> omega
  rw [underline, hcount]

/-- A line starts between two runes, since a line feed is a rune by itself. -/
theorem boundary_above (hstands : source.Stands start above before after below) :
    source.Boundary (above.flatMap (· ++ [Text.byte '\n'])).length := by
  rcases Text.Stands.above_eq_nil_or above with hnil | ⟨front, hfront⟩
  · rw [hnil]
    exact .zero source
  · have hfeed : source[front.length]? = some (Text.byte '\n') := by
      rw [hstands.text_eq, hfront]
      simp
    rw [hfront, List.length_append]
    exact Text.boundary_succ_of_ascii hfeed (by decide)

/-- Two places between runes cut a line into parts that have their runes apart. -/
theorem runeCount_line {piece rest : Text} (hstands : source.Stands start above before (piece ++ rest) below)
    (hstart : source.Boundary start) (hstop : source.Boundary (start + piece.length)) :
    (before ++ piece).runeCount = before.runeCount + piece.runeCount ∧
      (before ++ (piece ++ rest)).runeCount = (before ++ piece).runeCount + rest.runeCount := by
  have hline := boundary_above hstands
  have hfirst := hstart
  rw [hstands.offset_eq hstart.1] at hfirst hstop
  rw [Nat.add_assoc] at hstop
  rw [hstands.text_eq] at hline hfirst hstop
  have htwo : (before ++ piece).Boundary before.length := by
    simp only [List.append_assoc] at hline hfirst
    simp only [← List.append_assoc before piece] at hline hfirst
    exact .of_part hline hfirst (by simp)
  have hall : (before ++ (piece ++ rest)).Boundary (before ++ piece).length := by
    rw [List.length_append]
    exact .of_part hline hstop (by simp)
  rw [← List.append_assoc] at hall ⊢
  exact ⟨htwo.runeCount_append, hall.runeCount_append⟩

/-- The notice of a span inside a source. It tells the line on which the span starts, and it shows that line and up to
seven lines before it. The underline is on that line or right behind it. If the span is a piece of the line and
starts and stops between runes, then the underline is below just the runes of that piece, with one caret for each. -/
theorem locate?_underlines (source : Text) {start stop : Nat} (hle : start ≤ stop) (hstart : start ≤ source.length) :
    ∃ above before after below n,
      source.Stands start above before after below ∧ locate? ⟨start, stop⟩ source = some n ∧
      n.line = ((source.take start).count (Text.byte '\n') + 1 : Nat) ∧
      Shows (above ++ (before ++ after) :: below) ((source.take start).count (Text.byte '\n') + 1) n.lines ∧
      1 ≤ n.column ∧ n.column ≤ n.endColumn ∧ n.endColumn ≤ (before ++ after).runeCount + 1 ∧
      (source.Boundary start → source.Boundary stop → start < stop →
        Text.byte '\n' ∉ source.extract start stop →
          n.column = before.runeCount + 1 ∧ n.endColumn - n.column + 1 = (source.extract start stop).runeCount ∧
          ∀ color, n.underline color = Text.spaces n.gutterWidth ++ paint color [.brightBlack] " | " ++
            Text.spaces before.runeCount ++ paint color [.brightRed]
              (List.replicate (source.extract start stop).runeCount (Text.byte '^')) ++ "\n") := by
  obtain ⟨above, before, after, below, -, hstands⟩ := source.isLines_splitOn.exists_stands hstart
  obtain ⟨n, last, hlocate, hline, hcolumn, hend, hlast, hshows⟩ := locate?_of_stands hstands hle hstart
  have hpos : 1 ≤ n.column := by omega
  have hcolumns : n.column ≤ n.endColumn := by omega
  have hinside : n.endColumn ≤ (before ++ after).runeCount + 1 := by omega
  refine ⟨above, before, after, below, n, hstands, hlocate, ?_, ?_, hpos, hcolumns, hinside, ?_⟩
  · rw [hstands.count_eq, hline]
    rfl
  · rw [hstands.count_eq]
    exact hshows
  · intro hfirst hsecond hlt hplain
    have hstop : stop ≤ source.length := hsecond.1
    obtain ⟨rest, hafter, hstands'⟩ := hstands.move hle hstop hplain
    subst hafter
    have hposition := hstands'.position hstop
    have hlength : (source.extract start stop).length = stop - start := by
      rw [Text.extract, List.length_take, List.length_drop]
      omega
    have hne : source.extract start stop ≠ [] := List.ne_nil_of_length_pos (by omega)
    obtain ⟨hpiece, hwhole⟩ := runeCount_line hstands hfirst (by rwa [hlength, Nat.add_sub_cancel' hle])
    have hcount := Text.runeCount_pos hne
    -- None of the bounds on the columns takes effect.
    have hlast : last = (before ++ source.extract start stop).runeCount :=
      (hlast hlt (congrArg Position.line hposition)).trans (congrArg Position.column hposition)
    have hstartColumn : n.column = before.runeCount + 1 := by omega
    have hrunes : n.endColumn - n.column + 1 = (source.extract start stop).runeCount := by omega
    refine ⟨hstartColumn, hrunes, fun color => ?_⟩
    rw [underline_eq color hcolumns, hrunes, hstartColumn, Int.add_sub_cancel, Int.toNat_natCast, Int.toNat_natCast]

/-- A letter of two bytes and an operator, behind another such letter on the line before. -/
theorem locate?_underlines_two_runes :
    let source : Text := "a = 'é'\nb ü+ c"
    (11 ≤ 14 ∧ 11 ≤ source.length) ∧ ∃ n, locate? ⟨11, 14⟩ source = some n ∧ n.line = 2 ∧
      1 ≤ n.column ∧ n.endColumn - n.column + 1 = 2 := by
  intro source
  have hle : 11 ≤ 14 := by decide
  have hstart : 11 ≤ source.length := by decide +kernel
  obtain ⟨_, _, _, _, n, -, hlocate, hline, -, hpos, -, -, hpiece⟩ := locate?_underlines source hle hstart
  have hfeeds : (source.take 11).count (Text.byte '\n') = 1 := by decide +kernel
  have hblank : source[10]? = some (Text.byte ' ') := by decide +kernel
  have hplus : source[13]? = some (Text.byte '+') := by decide +kernel
  have hfirst : source.Boundary 11 := Text.boundary_succ_of_ascii hblank (by decide)
  have hsecond : source.Boundary 14 := Text.boundary_succ_of_ascii hplus (by decide)
  have hplain : Text.byte '\n' ∉ source.extract 11 14 := by decide +kernel
  have hrunes : (source.extract 11 14).runeCount = 2 := by decide +kernel
  obtain ⟨-, hcount, -⟩ := hpiece hfirst hsecond (by decide) hplain
  rw [hfeeds] at hline
  rw [hrunes] at hcount
  exact ⟨⟨hle, hstart⟩, n, hlocate, hline, hpos, hcount⟩

end Bareword.Report.Notice
