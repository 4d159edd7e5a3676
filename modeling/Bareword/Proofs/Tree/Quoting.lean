import Bareword.Proofs.Token.Quoting
import Bareword.Proofs.Tree.Adequacy

/-! # Parsing text in quotes

A source that is a text in quotes is one string, made of pieces that stand for the text. None of the choices of
the grammar plays a part in it, and neither do the names that are bound.

* `IsLiteral`, `partText`: a piece of a string without interpolation, and what it stands for.
* `IsString`: a string whose pieces stand for a text.
* `Finished`: the source was read to its end without a fault.
* `Reads.enquoted_pieces`: the pieces up to the closing quote.
* `parse_enquote`: the tree of a text in quotes.
-/

namespace Bareword.Tree
set_option autoImplicit false
open Token (quotes enquote escaped)

/-- Text that stands for itself, or an escape. -/
structure IsLiteral (n : Node) : Prop where
  kind : n.kind = .stringFragment ∨ n.kind = .escape
  children : n.children = []

/-- The text that a piece of a string stands for. -/
def partText (n : Node) : Text := if n.kind = .escape then Token.unescape n.text else n.text

/-- A string without interpolations that stands for a text. -/
structure IsString (s : Text) (n : Node) : Prop where
  kind : n.kind = .string
  literal : ∀ c ∈ n.children, IsLiteral c
  text : n.children.flatMap partText = s

namespace Grammar
open Parsing (Setup)
open Token (KindSet)

variable {setup : Setup} {exact : Prop} {quote : UInt8} {s t : Snapshot} {u : Text} {node whole : Node}
  {accept : KindSet} {tok : Token}

/-- From one snapshot to another the source was read to its end, and there was nothing to complain about. -/
structure Finished (setup : Setup) (s t : Snapshot) : Prop where
  rest : setup.src.drop t.pos = []
  faults : t.faults = s.faults
  halted : t.halted = s.halted

theorem Looks.eq_eof (hs : setup.src.drop s.pos = []) (h : Looks setup exact s accept tok) :
    tok = Token.mark .eof setup.src.length := by
  obtain ⟨bound, -, -, rfl⟩ := h
  exact Token.scan_end hs _ _

theorem Looks.eq_quote (hq : quote ∈ quotes) (hsrc : setup.src = enquote quote u) (hs : s.pos = 0)
    (h : Looks setup exact s accept tok) : tok = Token.cut setup.src .quote 0 1 := by
  obtain ⟨bound, -, -, rfl⟩ := h
  rw [hs, hsrc]
  exact Token.scan_quote hq _ _

/-! ## Pieces -/

theorem Reads.piece_mem {part : Node} (h : Reads setup exact (.piece tok) s part t) :
    tok.kind ∈ [Token.Kind.escape, .interpName, .interpOpen] := by
  cases h with
  | escape _ hk | interpolatedName _ hk | interpolated _ hk =>
    rw [hk]
    decide

theorem Reads.piece_escape {part : Node} (hk : tok.kind = .escape) (h : Reads setup exact (.piece tok) s part t) :
    part = .leaf .escape tok ∧ t = s.advance tok := by
  cases h with
  | escape => exact ⟨rfl, rfl⟩
  | interpolatedName _ hk' | interpolated _ hk' =>
    rw [hk] at hk'
    cases hk'

/-- The closing quote ends a string. -/
theorem Reads.closing_quote (hk : (Token.stringPiece setup.src s.pos quote.toNat).kind = .quote)
    (h : Reads setup exact (.stringPieces quote.toNat node) s whole t) :
    whole.kind = node.kind ∧ whole.children = node.children ∧
      t = s.advance (Token.stringPiece setup.src s.pos quote.toNat) := by
  cases h with
  | closeQuote => exact ⟨rfl, rfl, rfl⟩
  | unterminated _ hk' | stringText hk' =>
    rw [hk] at hk'
    cases hk'
  | stringPart hpiece =>
    have hmem := hpiece.piece_mem
    rw [hk] at hmem
    exact absurd hmem (by decide)

/-- A piece of text or an escape is added to a string, and the string goes on behind it. -/
theorem Reads.next_piece {v : Text} (hpiece : (Token.stringPiece setup.src s.pos quote.toNat).kind = .fragment ∧
      (Token.stringPiece setup.src s.pos quote.toNat).text = v ∨
    (Token.stringPiece setup.src s.pos quote.toNat).kind = .escape ∧
      Token.unescape (Token.stringPiece setup.src s.pos quote.toNat).text = v)
    (h : Reads setup exact (.stringPieces quote.toNat node) s whole t) :
    ∃ part, IsLiteral part ∧ partText part = v ∧
      Reads setup exact (.stringPieces quote.toNat (node.push part))
        (s.advance (Token.stringPiece setup.src s.pos quote.toNat)) whole t := by
  cases h with
  | closeQuote hk | unterminated _ hk =>
    rcases hpiece with ⟨hk', -⟩ | ⟨hk', -⟩ <;> rw [hk] at hk' <;> cases hk'
  | stringText hk hrest =>
    rcases hpiece with ⟨-, htext⟩ | ⟨hk', -⟩
    · exact ⟨.leaf .stringFragment _, ⟨.inl rfl, rfl⟩, htext, hrest⟩
    · rw [hk] at hk'
      cases hk'
  | stringPart hpart hrest =>
    rcases hpiece with ⟨hk, -⟩ | ⟨hk, htext⟩
    · have hmem := hpart.piece_mem
      rw [hk] at hmem
      exact absurd hmem (by decide)
    · obtain ⟨rfl, rfl⟩ := hpart.piece_escape hk
      have hkind : (Node.leaf .escape (Token.stringPiece setup.src s.pos quote.toNat)).kind = .escape := rfl
      exact ⟨_, ⟨.inr hkind, rfl⟩, (if_pos hkind).trans htext, hrest⟩

/-- The pieces of a text in quotes are added to the string up to the closing quote. -/
theorem Reads.enquoted_pieces (hq : quote ∈ quotes) (hs : setup.src.drop s.pos = escaped quote u ++ [quote])
    (h : Reads setup exact (.stringPieces quote.toNat node) s whole t) :
    Finished setup s t ∧ whole.kind = node.kind ∧
      ∃ parts, whole.children = node.children ++ parts ∧ (∀ c ∈ parts, IsLiteral c) ∧ parts.flatMap partText = u := by
  induction hn : u.length using Nat.strongRecOn generalizing u node s with
  | ind n ih =>
    by_cases hu : u = []
    · subst hu
      have htok := Token.stringPiece_quote hq hs
      obtain ⟨hkind, hchildren, rfl⟩ := h.closing_quote (by rw [htok]; rfl)
      refine ⟨⟨?_, rfl, rfl⟩, hkind, [], by rw [hchildren, List.append_nil], List.forall_mem_nil _, rfl⟩
      rw [htok]
      change setup.src.drop (s.pos + 1) = []
      rw [← List.drop_drop, hs]
      rfl
    · obtain ⟨v, w, rfl, hv, hw, hpiece⟩ := Token.stringPiece_escaped hq hu hs
      obtain ⟨part, hliteral, htext, hrest⟩ := h.next_piece hpiece
      have hshorter : w.length < n := by
        have hpos := List.length_pos_iff.mpr hv
        rw [List.length_append] at hn
        omega
      obtain ⟨hfinished, hkind, parts, hchildren, hparts, hflat⟩ := ih _ hshorter hw hrest rfl
      refine ⟨⟨hfinished.rest, hfinished.faults, hfinished.halted⟩, hkind, part :: parts, ?_,
        List.forall_mem_cons.mpr ⟨hliteral, hparts⟩, ?_⟩
      · rw [hchildren, Node.push, List.append_assoc]
        rfl
      · rw [List.flatMap_cons, htext, hflat]

/-! ## The string -/

section
variable (hq : quote ∈ quotes) (hsrc : setup.src = enquote quote u)
include hq hsrc

theorem Reads.enquoted_operandBody {callable : Bool}
    (h : Reads setup exact (.operandBody (Token.cut setup.src .quote 0 1) callable) s node t) :
    Finished setup s t ∧ IsString u node := by
  cases h with
  | string hheld hk h =>
    have htext : ((Token.cut setup.src .quote 0 1).text.headD 0).toNat = quote.toNat := by
      rw [hsrc]
      rfl
    rw [htext] at h
    have hrest : setup.src.drop (s.shift (Token.cut setup.src .quote 0 1)).pos = escaped quote u ++ [quote] := by
      rw [hsrc]
      rfl
    obtain ⟨hfinished, hkind, parts, hchildren, hparts, hflat⟩ := h.enquoted_pieces hq hrest
    rw [List.nil_append] at hchildren
    exact ⟨⟨hfinished.rest, hfinished.faults, hfinished.halted⟩, hkind, hchildren ▸ hparts, hchildren ▸ hflat⟩
  | literal _ hk | word _ hk | callee _ hk | name _ hk | dotGet _ hk | group _ hk | function hk | conditional hk
  | noOperand _ hk => cases hk
  | badOperand _ hk =>
    change exprStart.has .quote = false at hk
    exact absurd hk (by decide)

theorem Reads.enquoted_operand {callable : Bool} (hdepth : (s.depth : Int) < setup.maxDepth)
    (h : Reads setup exact (.operand (Token.cut setup.src .quote 0 1) callable) s node t) :
    Finished setup s t ∧ IsString u node := by
  cases h with
  | tooDeep _ hdeep => omega
  | operand _ _ h =>
    obtain ⟨hfinished, hstring⟩ := h.enquoted_operandBody hq hsrc
    exact ⟨⟨hfinished.rest, hfinished.faults, hfinished.halted⟩, hstring⟩

omit hq hsrc in
theorem Reads.operators_at_end {minPrec : Nat} {left : Node} {more : Option Node} (hs : setup.src.drop s.pos = [])
    (h : Reads setup exact (.operators minPrec left) s more t) : more = none ∧ t = s := by
  cases h with
  | noOperator => exact ⟨rfl, rfl⟩
  | operator hlook hprec =>
    rw [hlook.eq_eof hs] at hprec
    exact absurd (.inl rfl) hprec

theorem Reads.enquoted_binary {minPrec : Nat} {callable : Bool} (hdepth : (s.depth : Int) < setup.maxDepth)
    (hs : s.pos = 0) (h : Reads setup exact (.binary minPrec callable) s node t) :
    Finished setup s t ∧ IsString u node := by
  cases h with
  | operation hlook hleft hops =>
    obtain rfl := hlook.eq_quote hq hsrc hs
    have hfinished := (hleft.enquoted_operand hq hsrc hdepth).1
    cases (hops.operators_at_end hfinished.rest).1
  | lone hlook hleft hops hlone =>
    obtain rfl := hlook.eq_quote hq hsrc hs
    have hstring := (hleft.enquoted_operand hq hsrc hdepth).2
    rw [hstring.kind, Bool.and_eq_true] at hlone
    exact absurd hlone.2 (by decide)
  | justOperand hlook hleft hops =>
    obtain rfl := hlook.eq_quote hq hsrc hs
    obtain ⟨hfinished, hstring⟩ := hleft.enquoted_operand hq hsrc hdepth
    obtain ⟨-, rfl⟩ := hops.operators_at_end hfinished.rest
    exact ⟨hfinished, hstring⟩

theorem Reads.enquoted_expression (hdepth : (s.depth : Int) < setup.maxDepth) (hs : s.pos = 0)
    (h : Reads setup exact .expression s node t) : Finished setup s t ∧ IsString u node := by
  cases h with
  | pipe hleft hlook hk =>
    have hfinished := (hleft.enquoted_binary hq hsrc hdepth hs).1
    rw [hlook.eq_eof hfinished.rest] at hk
    cases hk
  | alone hleft => exact hleft.enquoted_binary hq hsrc hdepth hs

theorem Reads.enquoted_statement (hdepth : (s.depth : Int) < setup.maxDepth) (hs : s.pos = 0)
    (h : Reads setup exact .statement s node t) : Finished setup s t ∧ IsString u node := by
  cases h with
  | assignment hlook hk =>
    rw [hlook.eq_quote hq hsrc hs] at hk
    cases hk
  | noStatement hlook _ hk =>
    rw [hlook.eq_quote hq hsrc hs] at hk
    change stmtStart.has .quote = false at hk
    exact absurd hk (by decide)
  | evaluate _ _ _ h => exact h.enquoted_expression hq hsrc hdepth hs

end

/-! ## The source -/

theorem EndStatement.at_end {stop : KindSet} {junk : Option Node} (hs : setup.src.drop s.pos = [])
    (h : EndStatement setup exact s stop junk t) : junk = none ∧ t = s := by
  cases h with
  | clean => exact ⟨rfl, rfl⟩
  | junk hlook hends =>
    rw [hlook.eq_eof hs] at hends
    exact absurd (.inl rfl) hends

theorem Reads.statements_at_end {stmts : List Node} (hon : ∀ n, setup.isOff n = false) (hhalted : s.halted = false)
    (hs : setup.src.drop s.pos = []) (h : Reads setup exact (.statements .empty) s stmts t) :
    stmts = [] ∧ t.faults = s.faults ∧ t.halted = false := by
  cases h with
  | halted hhalted' =>
    rw [hhalted] at hhalted'
    cases hhalted'
  | off _ hoff =>
    rw [hon] at hoff
    cases hoff
  | noMore => exact ⟨rfl, rfl, hhalted⟩
  | separator _ _ hlook hends | next _ _ hlook hends =>
    rw [hlook.eq_eof (show setup.src.drop s.count.pos = [] from hs)] at hends
    exact absurd (.inl rfl) hends

/-- A text in quotes is read as one string that stands for the text. -/
theorem Reads.enquoted_statements {stmts : List Node} (hq : quote ∈ quotes) (hsrc : setup.src = enquote quote u)
    (hdepth : 0 < setup.maxDepth) (hon : ∀ n, setup.isOff n = false)
    (h : Reads setup exact (.statements .empty) .origin stmts t) :
    (∃ node, stmts = [node] ∧ IsString u node) ∧ t.faults = [] ∧ t.halted = false := by
  have hquote {tok : Token} (hlook : Looks setup exact (Snapshot.origin.count) (stmtStart ∪ separators ∪ .empty) tok) :
      tok.kind = .quote := by
    rw [hlook.eq_quote hq hsrc rfl]
    rfl
  cases h with
  | halted hhalted => cases hhalted
  | off _ hoff =>
    rw [hon] at hoff
    cases hoff
  | noMore _ _ hlook hends =>
    rw [hquote hlook] at hends
    exact absurd hends (by decide)
  | separator _ _ hlook _ hk =>
    rw [hquote hlook] at hk
    exact absurd hk (by decide)
  | next _ _ hlook _ _ hstmt hjunk hrest =>
    obtain ⟨hfinished, hstring⟩ := hstmt.enquoted_statement hq hsrc hdepth rfl
    obtain ⟨rfl, rfl⟩ := hjunk.at_end hfinished.rest
    obtain ⟨rfl, hfaults, hhalted⟩ := hrest.statements_at_end hon hfinished.halted hfinished.rest
    exact ⟨⟨_, rfl, hstring⟩, hfaults.trans hfinished.faults, hhalted⟩

/-- The tree of a text in quotes is one string that stands for the text, and there are no faults. -/
theorem parse_enquote (hq : quote ∈ quotes) (hsrc : setup.src = enquote quote u) (hdepth : 0 < setup.maxDepth)
    (hon : ∀ n, setup.isOff n = false) :
    (parse setup).faults = [] ∧ ∃ node, IsString u node ∧
      (parse setup).tree = { kind := .program, span := ⟨0, setup.src.length⟩, children := [node] } := by
  obtain ⟨stmts, t, houtcome⟩ := parse_outcome setup False fun h => h.elim
  obtain ⟨⟨node, rfl, hstring⟩, hfaults, hhalted⟩ := houtcome.reads.enquoted_statements hq hsrc hdepth hon
  refine ⟨houtcome.faults_eq.trans hfaults, node, hstring, ?_⟩
  rw [houtcome.tree_eq, wholeTree, unread, if_neg fun h => Bool.false_ne_true (hhalted.symm.trans h.1)]
  rfl

end Grammar
end Bareword.Tree
