import Bareword.Span
import Mathlib.Data.List.TakeWhile

/-! # Lines

A text is its lines with line feeds between them, and every offset stands on one of them.

* `Text.IsLines`: the lines of a text.
* `Text.isLines_splitOn`: a text that is cut at its line feeds gives its lines.
* `Text.Stands`: the line that an offset stands on, and the place on that line.
* `Text.Stands.position`: the position of an offset counts the lines above and the runes before it.
-/

namespace Bareword.Text
set_option autoImplicit false

variable {t l before after : Text} {lines above below : List Text} {n m : Nat}

/-! ## Lines of a text -/

/-- The lines of a text. None of them has a line feed in it, and with line feeds between them they are the text. -/
structure IsLines (t : Text) (lines : List Text) : Prop where
  ne_nil : lines ≠ []
  join_eq : join [byte '\n'] lines = t
  plain : ∀ l ∈ lines, byte '\n' ∉ l

theorem join_cons (sep l : Text) (below : List Text) : join sep (l :: below) = l ++ below.flatMap (sep ++ ·) := by
  induction below generalizing l with
  | nil => simp [join]
  | cons next below ih =>
    rw [join, ih next, List.flatMap_cons]
    · simp only [List.append_assoc]
    · exact List.cons_ne_nil _ _

theorem join_append_cons (sep l : Text) (above below : List Text) :
    join sep (above ++ l :: below) = above.flatMap (· ++ sep) ++ join sep (l :: below) := by
  induction above with
  | nil => rfl
  | cons first above ih =>
    rw [List.cons_append, join, ih, List.flatMap_cons, List.append_assoc, List.append_assoc, List.append_assoc]
    simp

/-- A byte in front of a text starts a piece of its own, or it belongs to the first one. -/
theorem splitOn_cons (sep b : UInt8) (t : Text) :
    ∃ piece pieces, splitOn sep t = piece :: pieces ∧
      splitOn sep (b :: t) = if b = sep then [] :: piece :: pieces else (b :: piece) :: pieces := by
  cases hpieces : splitOn sep t with
  | nil =>
    cases t with
    | nil => cases hpieces
    | cons c t =>
      rw [splitOn] at hpieces
      split at hpieces
      · cases hpieces
      · split at hpieces <;> cases hpieces
  | cons piece pieces =>
    refine ⟨piece, pieces, rfl, ?_⟩
    rw [splitOn, hpieces]

theorem splitOn_ne_nil (sep : UInt8) (t : Text) : splitOn sep t ≠ [] := by
  cases t with
  | nil => exact List.cons_ne_nil _ _
  | cons b t =>
    obtain ⟨piece, pieces, -, heq⟩ := splitOn_cons sep b t
    rw [heq]
    split <;> exact List.cons_ne_nil _ _

theorem join_splitOn (sep : UInt8) (t : Text) : join [sep] (splitOn sep t) = t := by
  induction t with
  | nil => rfl
  | cons b t ih =>
    obtain ⟨piece, pieces, hpieces, heq⟩ := splitOn_cons sep b t
    rw [hpieces, join_cons] at ih
    rw [heq]
    split
    · rename_i hb
      rw [join_cons, List.flatMap_cons, List.nil_append, List.append_assoc, ih, hb]
      rfl
    · rw [join_cons, List.cons_append, ih]

theorem not_mem_of_mem_splitOn (sep : UInt8) (t : Text) : ∀ l ∈ splitOn sep t, sep ∉ l := by
  induction t with
  | nil => simp [splitOn]
  | cons b t ih =>
    obtain ⟨piece, pieces, hpieces, heq⟩ := splitOn_cons sep b t
    rw [hpieces, List.forall_mem_cons] at ih
    rw [heq]
    split
    · rw [List.forall_mem_cons, List.forall_mem_cons]
      exact ⟨List.not_mem_nil, ih⟩
    · rename_i hb
      rw [List.forall_mem_cons, List.mem_cons, not_or]
      exact ⟨⟨Ne.symm hb, ih.1⟩, ih.2⟩

/-- Cut at its line feeds, a text falls into its lines. -/
theorem isLines_splitOn (t : Text) : t.IsLines (splitOn (byte '\n') t) :=
  ⟨splitOn_ne_nil _ t, join_splitOn _ t, not_mem_of_mem_splitOn _ t⟩

theorem splitOn_eq_singleton {sep : UInt8} (h : sep ∉ l) : splitOn sep l = [l] := by
  induction l with
  | nil => rfl
  | cons b l ih =>
    rw [List.mem_cons, not_or] at h
    rw [splitOn, ih h.2]
    exact if_neg (Ne.symm h.1)

theorem splitOn_append_cons {sep : UInt8} (h : sep ∉ l) (t : Text) :
    splitOn sep (l ++ sep :: t) = l :: splitOn sep t := by
  induction l with
  | nil =>
    obtain ⟨piece, pieces, hpieces, heq⟩ := splitOn_cons sep sep t
    rw [List.nil_append, heq, if_pos rfl, hpieces]
  | cons b l ih =>
    rw [List.mem_cons, not_or] at h
    rw [List.cons_append, splitOn, ih h.2]
    exact if_neg (Ne.symm h.1)

/-- A text has only one list of lines. -/
theorem IsLines.eq_splitOn (h : t.IsLines lines) : splitOn (byte '\n') t = lines := by
  obtain ⟨hne, rfl, hplain⟩ := h
  induction lines with
  | nil => exact absurd rfl hne
  | cons l below ih =>
    obtain ⟨hl, hbelow⟩ := List.forall_mem_cons.mp hplain
    cases below with
    | nil => exact splitOn_eq_singleton hl
    | cons next below =>
      have hjoin : join [byte '\n'] (l :: next :: below) = l ++ byte '\n' :: join [byte '\n'] (next :: below) := by
        rw [join, List.append_assoc]
        · rfl
        · exact List.cons_ne_nil _ _
      rw [hjoin, splitOn_append_cons hl, ih (List.cons_ne_nil _ _) hbelow]

/-! ## Ends of lines -/

/-- What is trimmed off the end of a text is made of one byte only, and all of that byte there. -/
theorem trimEnd_eq (b : UInt8) (t : Text) :
    (∃ k, t = trimEnd (· == b) t ++ List.replicate k b) ∧ (trimEnd (· == b) t).getLast? ≠ some b := by
  constructor
  · refine ⟨(t.reverse.takeWhile (· == b)).length, ?_⟩
    have hcut : (t.reverse.takeWhile (· == b)).reverse = List.replicate (t.reverse.takeWhile (· == b)).length b := by
      rw [List.eq_replicate_iff, List.length_reverse]
      refine ⟨rfl, fun c hc => ?_⟩
      have hmet := List.mem_takeWhile_imp (List.mem_reverse.mp hc)
      exact eq_of_beq hmet
    rw [← hcut, trimEnd, ← List.reverse_append, List.takeWhile_append_dropWhile, List.reverse_reverse]
  · intro hlast
    rw [trimEnd, List.getLast?_reverse] at hlast
    have hstop := List.head?_dropWhile_not (· == b) t.reverse
    rw [hlast] at hstop
    simp at hstop

/-! ## Offsets on lines -/

/-- An offset stands on a line between the texts `before` and `after`, with some lines above that line and some
below it. -/
structure Stands (t : Text) (n : Nat) (above : List Text) (before after : Text) (below : List Text) : Prop where
  lines : t.IsLines (above ++ (before ++ after) :: below)
  take_eq : t.take n = above.flatMap (· ++ [byte '\n']) ++ before

/-- Every offset of a text stands on one of its lines. -/
theorem IsLines.exists_stands (h : t.IsLines lines) (hn : n ≤ t.length) :
    ∃ above before after below, lines = above ++ (before ++ after) :: below ∧ t.Stands n above before after below := by
  have hsplit (lines : List Text) (hne : lines ≠ []) (n : Nat) (hn : n ≤ (join [byte '\n'] lines).length) :
      ∃ above before after below, lines = above ++ (before ++ after) :: below ∧
        (join [byte '\n'] lines).take n = above.flatMap (· ++ [byte '\n']) ++ before := by
    induction lines generalizing n with
    | nil => exact absurd rfl hne
    | cons l below ih =>
      rw [join_cons] at hn ⊢
      by_cases hl : n ≤ l.length
      · refine ⟨[], l.take n, l.drop n, below, ?_, ?_⟩
        · rw [List.take_append_drop]
          rfl
        · rw [List.take_append_of_le_length hl]
          rfl
      · -- The offset stands behind the line feed of the first line.
        cases below with
        | nil =>
          simp only [List.flatMap_nil, List.append_nil] at hn
          exact absurd hn hl
        | cons next below =>
          have hrest :
              (next :: below).flatMap ([byte '\n'] ++ ·) = [byte '\n'] ++ join [byte '\n'] (next :: below) := by
            rw [join_cons, List.flatMap_cons, List.append_assoc]
          obtain ⟨k, rfl⟩ : ∃ k, n = (l ++ [byte '\n']).length + k := by
            refine ⟨n - (l.length + 1), ?_⟩
            rw [List.length_append, List.length_singleton]
            omega
          have hlength : (l ++ [byte '\n'] ++ join [byte '\n'] (next :: below)).length =
              (l ++ [byte '\n']).length + (join [byte '\n'] (next :: below)).length := List.length_append
          rw [hrest, ← List.append_assoc, hlength] at hn
          obtain ⟨above, before, after, below', heq, htake⟩ :=
            ih (List.cons_ne_nil _ _) k (Nat.le_of_add_le_add_left hn)
          refine ⟨l :: above, before, after, below', ?_, ?_⟩
          · rw [heq, List.cons_append]
          · rw [hrest, ← List.append_assoc, List.take_length_add_append, htake, List.flatMap_cons]
            simp only [List.append_assoc]
  obtain ⟨above, before, after, below, heq, htake⟩ := hsplit lines h.ne_nil n (h.join_eq ▸ hn)
  exact ⟨above, before, after, below, heq, heq ▸ h, h.join_eq ▸ htake⟩

namespace Stands

theorem before_plain (h : t.Stands n above before after below) : byte '\n' ∉ before := by
  intro hmem
  refine h.lines.plain (before ++ after) ?_ (List.mem_append_left _ hmem)
  simp

theorem text_eq (h : t.Stands n above before after below) :
    t = above.flatMap (· ++ [byte '\n']) ++ (before ++ after ++ below.flatMap ([byte '\n'] ++ ·)) := by
  rw [← join_cons, ← join_append_cons, h.lines.join_eq]

theorem offset_eq (h : t.Stands n above before after below) (hn : n ≤ t.length) :
    n = (above.flatMap (· ++ [byte '\n'])).length + before.length := by
  rw [← List.length_append, ← h.take_eq, List.length_take_of_le hn]

theorem drop_eq (h : t.Stands n above before after below) : t.drop n = after ++ below.flatMap ([byte '\n'] ++ ·) := by
  have hcut := List.take_append_drop n t
  rw [h.take_eq] at hcut
  have htext := hcut.trans h.text_eq
  simpa only [List.append_assoc, List.append_cancel_left_eq] using htext

/-- There are as many line feeds before an offset as lines above it. -/
theorem count_eq (h : t.Stands n above before after below) : (t.take n).count (byte '\n') = above.length := by
  have hfeeds (above : List Text) (hplain : ∀ l ∈ above, byte '\n' ∉ l) :
      (above.flatMap (· ++ [byte '\n'])).count (byte '\n') = above.length := by
    induction above with
    | nil => rfl
    | cons l above ih =>
      obtain ⟨hl, hrest⟩ := List.forall_mem_cons.mp hplain
      rw [List.flatMap_cons, List.count_append, List.count_append, List.count_eq_zero_of_not_mem hl,
        List.count_singleton_self, ih hrest, List.length_cons]
      omega
  rw [h.take_eq, List.count_append, List.count_eq_zero_of_not_mem h.before_plain, Nat.add_zero]
  exact hfeeds above fun l hl => h.lines.plain l (List.mem_append_left _ hl)

/-- What stands before the first line or behind a line feed is empty or ends with one. -/
theorem above_eq_nil_or (above : List Text) :
    above.flatMap (· ++ [byte '\n']) = [] ∨ ∃ front, above.flatMap (· ++ [byte '\n']) = front ++ [byte '\n'] := by
  rcases List.eq_nil_or_concat above with rfl | ⟨above, l, rfl⟩
  · exact .inl rfl
  · refine .inr ⟨above.flatMap (· ++ [byte '\n']) ++ l, ?_⟩
    simp

theorem lastLine_eq (h : t.Stands n above before after below) : Position.lastLine (t.take n) = before := by
  have hall : ∀ b ∈ before.reverse, decide (b ≠ byte '\n') = true := by
    intro b hb
    rw [decide_eq_true_iff]
    rintro rfl
    exact h.before_plain (List.mem_reverse.mp hb)
  rw [Position.lastLine, h.take_eq, List.reverse_append, List.takeWhile_append_of_pos hall]
  rcases above_eq_nil_or above with hnil | ⟨front, hfront⟩
  · rw [hnil]
    simp
  · rw [hfront]
    simp

/-- The position of an offset: how many lines are above it, and how many runes before it on its line. -/
theorem position (h : t.Stands n above before after below) (hn : n ≤ t.length) :
    Position.ofOffset t n = ⟨n, above.length, before.runeCount⟩ := by
  rw [Position.ofOffset, Int.toNat_natCast, Nat.min_eq_left hn, h.count_eq, h.lastLine_eq]

/-- As long as there is no line feed in between, later offsets stand on the same line. -/
theorem move (h : t.Stands n above before after below) (hle : n ≤ m) (hm : m ≤ t.length)
    (hplain : byte '\n' ∉ t.extract n m) :
    ∃ after', after = t.extract n m ++ after' ∧ t.Stands m above (before ++ t.extract n m) after' below := by
  have hpiece : t.extract n m = (after ++ below.flatMap ([byte '\n'] ++ ·)).take (m - n) := by
    rw [extract, h.drop_eq]
  have hshort : m - n ≤ after.length := by
    by_contra hlong
    cases below with
    | nil =>
      have hlength := congrArg List.length h.drop_eq
      simp only [List.flatMap_nil, List.append_nil, List.length_drop] at hlength
      omega
    | cons next below =>
      -- The line feed that ends the line is in between.
      refine hplain ?_
      obtain ⟨k, hk⟩ : ∃ k, m - n = after.length + (k + 1) := ⟨m - n - after.length - 1, by omega⟩
      rw [hpiece, hk, List.take_length_add_append]
      simp
  rw [List.take_append_of_le_length hshort] at hpiece
  have hafter : after = t.extract n m ++ after.drop (m - n) := by rw [hpiece, List.take_append_drop]
  refine ⟨after.drop (m - n), hafter, ?_, ?_⟩
  · rw [List.append_assoc, ← hafter]
    exact h.lines
  · obtain ⟨k, rfl⟩ := Nat.exists_eq_add_of_le hle
    rw [List.take_add, h.take_eq, List.append_assoc, extract, Nat.add_sub_cancel_left]

end Stands
end Bareword.Text
