import Bareword.Proofs.Evaluation.Correctness
import Bareword.Proofs.Program.Linking
import Bareword.Proofs.Tree.Quoting
import Bareword.Proofs.Tree.Reports

/-! # Running text in quotes

A string without interpolations is pushed as a whole, or part by part if it has escapes, and the parts are joined.
So a script that is a text in quotes returns the text, as long as its parts fit on the stack.

* `Expr.ofNode_string`: the expression of such a string.
* `Expr.compile_text`, `Expr.compile_texts`: its program.
* `Image.Leaves`: what it leaves on the stack.
* `Script.enquoted_returns`: parsing, compiling and running a text in quotes.
-/

namespace Bareword
set_option autoImplicit false
open Bareword.Tree (Node IsLiteral IsString partText)
open OfTree (isFragment)

variable {s : Text} {n c : Node} {cs : List Node} {span : Span}

/-! ## Expressions -/

def Expr.textLiteral (span : Span) (t : Text) : Expr := .literal span (.ofText t)

theorem mapM_eq_ok {ε α β : Type} {f : α → Except ε β} {g : α → β} {as : List α} (h : ∀ a ∈ as, f a = .ok (g a)) :
    as.mapM f = .ok (as.map g) := by
  induction as with
  | nil => rfl
  | cons a as ih =>
    obtain ⟨ha, has⟩ := List.forall_mem_cons.mp h
    rw [List.mapM_cons, ha, ih has]
    rfl

/-- Pieces that stand for themselves stand for their texts. -/
theorem flatMap_text_of_fragments (h : cs.all isFragment = true) : cs.flatMap (·.text) = cs.flatMap partText := by
  refine List.flatMap_congr fun c hc => ?_
  have hc' := List.all_eq_true.mp h c hc
  rw [partText, if_neg]
  intro hk
  rw [isFragment, hk] at hc'
  exact absurd hc' (by decide)

theorem OfTree.fragment_literal {sub : Node → Result Expr} (h : IsLiteral c) :
    fragment sub n c = .ok (.textLiteral n.span (partText c)) := by
  rw [fragment, partText]
  rcases h.kind with hk | hk <;> rw [hk] <;> rfl

theorem Expr.ofNode_string (h : IsString s n) :
    Expr.ofNode n = .ok (if n.children.all isFragment then .textLiteral n.span s
      else .concat n.span ((n.children.map partText).map (.textLiteral n.span))) := by
  rw [ofNode, Tree.Node.height_eq, OfTree.ofNodeWithin, OfTree.ofParts, h.kind]
  dsimp only
  rw [OfTree.fragments]
  split
  · rename_i hall
    rw [flatMap_text_of_fragments hall, h.text]
    rfl
  · rw [mapM_eq_ok fun c hc => OfTree.fragment_literal (h.literal c hc), List.map_map]
    rfl

/-! ## Programs -/

def Instruction.pushText (span : Span) (t : Text) : Instruction := { op := .push, value := .ofText t, span }

def Instruction.halt : Instruction := { op := .halt }

def Instruction.join (span : Span) (n : Nat) : Instruction := { op := .strConcat, count := Int64.ofNat n, span }

theorem Expr.compile_text (source filename : Text) (span : Span) (t : Text) :
    Expr.compile source filename [.textLiteral span t] =
      { instructions := [.pushText span t, .halt], source, filename } := rfl

theorem Expr.genParts_texts (span : Span) (ts : List Text) (c : Counters) :
    Expr.genParts (ts.map (.textLiteral span)) c = ⟨ts.map (.pushText span), [], c⟩ := by
  induction ts with
  | nil => rfl
  | cons t ts ih =>
    calc Expr.genParts ((t :: ts).map (.textLiteral span)) c
      _ = ⟨.pushText span t :: (Expr.genParts (ts.map (.textLiteral span)) c).code,
            (Expr.genParts (ts.map (.textLiteral span)) c).bodies,
            (Expr.genParts (ts.map (.textLiteral span)) c).next⟩ := rfl
      _ = ⟨(t :: ts).map (.pushText span), [], c⟩ := by rw [ih]; rfl

theorem Expr.compile_texts (source filename : Text) (span : Span) (ts : List Text) :
    Expr.compile source filename [.concat span (ts.map (.textLiteral span))] =
      { instructions := ts.map (.pushText span) ++ [.join span ts.length, .halt], source, filename } := by
  have hgen : Expr.genStatements .zero [.concat span (ts.map (.textLiteral span))] {} =
      ⟨ts.map (.pushText span) ++ [.join span ts.length], [], {}⟩ := by
    rw [Expr.genStatements, Expr.genRest, Gen.append_apply, Expr.gen_concat, Gen.append_apply, Expr.genParts_texts,
      List.length_map]
    exact congrArg (Emitted.mk · [] {}) (List.append_nil _)
  have hcode : (Expr.genStatements .zero [.concat span (ts.map (.textLiteral span))] ++ Gen.instr .halt) {} =
      ⟨ts.map (.pushText span) ++ [.join span ts.length, .halt], [], {}⟩ := by
    rw [Gen.append_apply, hgen]
    exact congrArg (Emitted.mk · [] {}) (List.append_assoc ..)
  change (let e := (Expr.genStatements .zero [.concat span (ts.map (.textLiteral span))] ++ Gen.instr .halt) {}
    ({ instructions := e.code ++ e.bodies.flatMap placed, functions := e.bodies.map (·.label), source, filename } :
      Program)) = _
  rw [hcode]
  exact congrArg (fun is => ({ instructions := is, source, filename } : Program)) (List.append_nil _)

/-! ## Runs -/

theorem join_empty (ts : List Text) : Text.join [] ts = ts.flatten := by
  induction ts with
  | nil => rfl
  | cons t ts ih =>
    cases ts with
    | nil => exact (List.append_nil t).symm
    | cons u ts => exact congrArg₂ (· ++ ·) (List.append_nil t) ih

theorem joinAll_texts (ts : List Text) : Value.joinAll [] (ts.map .text) = ts.flatten := by
  rw [Value.joinAll, List.map_map, join_empty]
  exact congrArg List.flatten (List.map_id ts)

namespace Image
open Machine (View Goes)
open Instruction (pushText join halt)

variable {im : Image} {host : Host} {c : View} {k : Nat} {t : Text} {ts : List Text}

theorem size_pushTexts (span : Span) (ts : List Text) : Instruction.size (ts.map (pushText span)) = ts.length := by
  induction ts with
  | nil => rfl
  | cons t ts ih => rw [List.map_cons, size_cons rfl, ih, List.length_cons]

theorem goes_pushText (h : Nonempty (im.Stands k (pushText span t))) (hip : c.ip = Int64.ofNat k)
    (hroom : c.live.length < Stack.limit) :
    Goes im.code host c { c with ip := Int64.ofNat (k + 1), live := .text t :: c.live } := by
  obtain ⟨st⟩ := h
  obtain ⟨v, hv, hconst⟩ := st.constant rfl
  cases hv
  exact .single ((Machine.pushes_constant st.holds st.keeps.op hconst hip).room hroom)

theorem goes_pushTexts (h : im.Loaded k (ts.map (pushText span))) (hip : c.ip = Int64.ofNat k)
    (hroom : c.live.length + ts.length ≤ Stack.limit) :
    Goes im.code host c
      { c with ip := Int64.ofNat (k + ts.length), live := (ts.map Value.text).reverse ++ c.live } := by
  induction ts generalizing k c with
  | nil =>
    have hstay : c = { c with ip := Int64.ofNat k } := by rw [← hip]
    rw [List.length_nil, Nat.add_zero, List.map_nil, List.reverse_nil, List.nil_append, ← hstay]
    exact .refl c
  | cons t ts ih =>
    obtain ⟨hfirst, hrest⟩ := (loaded_cons rfl).mp h
    rw [List.length_cons] at hroom
    have hpush : Goes im.code host c _ := goes_pushText hfirst hip (by omega)
    have hothers := ih (c := { c with ip := Int64.ofNat (k + 1), live := .text t :: c.live }) hrest rfl
      (by rw [List.length_cons]; omega)
    have hlive : ((t :: ts).map Value.text).reverse ++ c.live = (ts.map Value.text).reverse ++ .text t :: c.live := by
      rw [List.map_cons, List.reverse_cons, List.append_assoc, List.singleton_append]
    rw [hlive, List.length_cons, Nat.add_comm ts.length, ← Nat.add_assoc]
    exact hpush.trans hothers

/-- The code gets from its start to a halt with a value alone on the stack, and nothing is written. -/
def Leaves (im : Image) (host : Host) (v : Value) : Prop :=
  ∀ c : View, c.ip = 0 → c.live = [] → ∃ n i, im.code.Holds n i ∧ i.op = .halt ∧
    Goes im.code host c { c with ip := Int64.ofNat n, live := [v] }

theorem leaves_text (h : im.Loaded 0 [pushText span t, halt]) : im.Leaves host (.text t) := by
  intro c hip hlive
  obtain ⟨hpush, hhalt⟩ := (loaded_cons rfl).mp h
  obtain ⟨st⟩ := (loaded_singleton rfl).mp hhalt
  have hgoes : Goes im.code host c _ := goes_pushText hpush hip (by rw [hlive]; decide)
  rw [hlive] at hgoes
  exact ⟨1, st.linked, st.holds, st.keeps.op, hgoes⟩

theorem leaves_texts (h : im.Loaded 0 (ts.map (pushText span) ++ [join span ts.length, halt]))
    (hroom : ts.length ≤ Stack.limit) : im.Leaves host (.text ts.flatten) := by
  intro c hip hlive
  obtain ⟨hpushes, hrest⟩ := (loaded_append ..).mp h
  rw [Nat.zero_add, size_pushTexts] at hrest
  obtain ⟨⟨hjoin⟩, hhalt⟩ := (loaded_cons rfl).mp hrest
  obtain ⟨st⟩ := (loaded_singleton rfl).mp hhalt
  have hgoes : Goes im.code host c _ := goes_pushTexts hpushes hip (by rw [hlive]; simpa using hroom)
  rw [Nat.zero_add, hlive, List.append_nil] at hgoes
  have hlength : (ts.map Value.text).length = ts.length := List.length_map _
  have hyields : Machine.Yields (Machine.step im.code host) _ false _ :=
    Machine.yields_concat (c := { c with ip := Int64.ofNat ts.length, live := (ts.map Value.text).reverse })
      hjoin.holds hjoin.keeps.op rfl (List.append_nil _).symm (by rw [hlength]; exact hjoin.keeps.count)
      (by rwa [hlength]) (by simp [Value.isHole]) (by decide)
  rw [joinAll_texts] at hyields
  exact ⟨_, st.linked, st.holds, st.keeps.op, hgoes.trans (.single hyields)⟩

end Image

/-! ## Scripts -/

/-- A script runs to a value without any output. -/
def Script.Returns (s : Script) (host : Host) (v : Value) : Prop :=
  ∃ steps, ∀ fuel ≥ steps, s.eval host fuel = some { value := .ok v }

theorem Script.returns_of_leaves {script : Script} {host : Host} {p : Program} {given : List (Text × Value)} {v : Value}
    (hp : script.compile = .ok p) (hsmall : p.instructions.length < 2 ^ 63) (hcancelled : script.cancelled = false)
    (hgiven : Value.ofGlobals script.globals = .ok given)
    (hleaves : ∀ im : Image, im.Loaded 0 p.instructions → im.Leaves host v) : script.Returns host v := by
  obtain ⟨es, hes, hcompile⟩ := Script.compile_eq_ok hp
  obtain ⟨m, hm⟩ : ∃ m, Machine.ofProgram (Script.builtins script.registry ++ given) p = .ok m := by
    rw [hcompile] at hsmall ⊢
    exact Machine.ofProgram_compile (Expr.allSound_of_ofProgram hes) _ _ hsmall _
  have hlinked : p.linked = false := by rw [hcompile]; rfl
  obtain ⟨im, hb⟩ := Machine.built_of_ofProgram hlinked hsmall hm
  have hstart := Evaluation.startState_view hb
  obtain ⟨n, i, hi, hop, hgoes⟩ := hleaves im hb.loaded m.startState.view (by rw [hstart]) (by rw [hstart])
  obtain ⟨steps, hrun⟩ := Evaluation.run_of_goes hb hgoes hi hop rfl rfl
  refine ⟨steps, fun fuel hfuel => ?_⟩
  obtain ⟨o, ho, hresult, hout, -⟩ := hrun fuel hfuel
  have hmachine : Script.machine script.registry script.globals p = .ok m := by
    rw [Script.machine, Script.machineWith, hgiven]
    exact hm
  rw [hstart] at hout
  rw [Script.eval, hp]
  dsimp only
  rw [hmachine, Script.runOn, hcancelled]
  change m.run { host, fuel } = some o at ho
  change (m.run { host, fuel }).map _ = _
  rw [ho, Option.map_some, hresult, hout]

/-- A script was read as one string without interpolations. -/
structure Script.ReadsString (script : Script) (s : Text) (n : Node) : Prop where
  faults : script.parse.faults = []
  kind : script.parse.tree.kind = .program
  children : script.parse.tree.children = [n]
  string : IsString s n

section
variable {script : Script} (h : script.ReadsString s n)
include h

/-- There are only strings and their pieces in the tree. -/
theorem Script.ReadsString.kind_mem {m : Node} (hm : m ∈ script.parse.tree.preorder) :
    m.kind ∈ [Tree.Kind.program, .string, .stringFragment, .escape] := by
  rcases Tree.Node.mem_preorder.mp hm with rfl | ⟨c, hc, hm⟩
  · rw [h.kind]
    decide
  rw [h.children, List.mem_singleton] at hc
  subst hc
  rcases Tree.Node.mem_preorder.mp hm with rfl | ⟨part, hpart, hm⟩
  · rw [h.string.kind]
    decide
  obtain ⟨hkind, hleaf⟩ := h.string.literal part hpart
  rcases Tree.Node.mem_preorder.mp hm with rfl | ⟨_, hinner, -⟩
  · rcases hkind with hk | hk <;> rw [hk] <;> decide
  · rw [hleaf] at hinner
    cases hinner

theorem Script.ReadsString.compile_eq {e : Expr} (he : Expr.ofNode n = .ok e) :
    script.compile = .ok (Expr.compile script.source script.filename [e]) := by
  have hfailure : script.parse.failure? = none := by
    rw [Tree.Parsed.failure?, h.faults]
    rfl
  have herrors : script.parse.tree.errors = [] := by
    refine List.filter_eq_nil_iff.mpr fun m hm herror => ?_
    have hmem := h.kind_mem hm
    rw [beq_iff_eq.mp herror] at hmem
    exact absurd hmem (by decide)
  have hprogram : Expr.ofProgram script.parse.tree = .ok [e] := by
    rw [Expr.ofProgram, h.children, List.mapM_cons, he]
    rfl
  rw [Script.compile, hfailure]
  dsimp only
  rw [Program.ofTree]
  dsimp only
  rw [if_neg (not_not.mpr h.kind), herrors, hprogram]
  rfl

end

section
open Token (quotes enquote)
open Instruction (pushText join halt)

theorem Script.readsString_enquote {quote : UInt8} (hq : quote ∈ quotes) {script : Script}
    (hsource : script.source = enquote quote s) (hcancelled : script.cancelled = false) :
    ∃ node, script.ReadsString s node := by
  have hon (k : Nat) : script.setup.isOff k = false := by
    rw [Tree.Parsing.Setup.isOff, Script.setup, hcancelled]
    rfl
  obtain ⟨hfaults, node, hstring, htree⟩ :=
    Tree.Grammar.parse_enquote hq (show script.setup.src = _ from hsource) (show (0 : Int) < 500 by decide) hon
  exact ⟨node, hfaults, by rw [Script.parse, htree], by rw [Script.parse, htree], hstring⟩

/-- The source of a script is a text in quotes. It parses without a fault, to one string. It compiles to one push of
the text, or to pushes of the parts of the text and one instruction that joins them. And it returns the text, as long
as its parts fit on the stack. -/
theorem Script.enquoted_returns {quote : UInt8} (hq : quote ∈ quotes) (s filename : Text)
    (registry : Option Registry) {globals : List (Text × Datum)} {given : List (Text × Value)}
    (hgiven : Value.ofGlobals globals = .ok given) (host : Host) :
    let script : Script := { source := enquote quote s, filename, registry, globals }
    script.parse.faults = [] ∧
    ∃ node, script.parse.tree.children = [node] ∧ node.kind = .string ∧
      (script.compile = .ok
          { instructions := [pushText node.span s, halt], source := script.source, filename } ∧
        script.Returns host (.text s) ∨
      ∃ parts : List Text, parts.flatten = s ∧
        script.compile = .ok
          { instructions := parts.map (pushText node.span) ++ [join node.span parts.length, halt]
            source := script.source, filename } ∧
        (parts.length ≤ Stack.limit → script.Returns host (.text s))) := by
  intro script
  obtain ⟨node, h⟩ : ∃ node, script.ReadsString s node := Script.readsString_enquote hq rfl rfl
  refine ⟨h.faults, node, h.children, h.string.kind, ?_⟩
  have hcompile := h.compile_eq (Expr.ofNode_string h.string)
  split at hcompile
  · rename_i hall
    rw [Expr.compile_text] at hcompile
    exact .inl ⟨hcompile, Script.returns_of_leaves hcompile (show 2 < 2 ^ 63 by decide) rfl hgiven fun _ him =>
      Image.leaves_text him⟩
  · rename_i hall
    rw [Expr.compile_texts] at hcompile
    have htexts : (node.children.map partText).flatten = s := by rw [← List.flatMap_def, h.string.text]
    refine .inr ⟨node.children.map partText, htexts, hcompile, fun hroom => ?_⟩
    have hlimit : Stack.limit = 1024 := rfl
    have hreturns : script.Returns host (.text (node.children.map partText).flatten) :=
      Script.returns_of_leaves hcompile ?_ rfl hgiven fun _ him => Image.leaves_texts him hroom
    · rwa [htexts] at hreturns
    · rw [List.length_append, List.length_map]
      change _ + 2 < _
      omega

/-- A text with an apostrophe and a dollar sign, which is pushed in five parts. -/
theorem Script.enquoted_returns_price :
    let script : Script := { source := "'it\\'s \\$5'" }
    script.source = enquote (Text.byte '\'') "it's $5" ∧
      (script.compile.toOption.map fun p => p.instructions.map (·.op)) =
        some [.push, .push, .push, .push, .push, .strConcat, .halt] ∧
      script.Returns ⟨fun _ => none, []⟩ (.text "it's $5") := by
  intro script
  have hsource : script.source = enquote (Text.byte '\'') "it's $5" := by decide +kernel
  have hops : (script.compile.toOption.map fun p => p.instructions.map (·.op)) =
      some [.push, .push, .push, .push, .push, .strConcat, .halt] := by cbv
  refine ⟨hsource, hops, ?_⟩
  have hscript : script = { source := enquote (Text.byte '\'') "it's $5" } :=
    congrArg (fun source => ({ source } : Script)) hsource
  rw [hscript] at hops ⊢
  obtain ⟨-, node, -, -, ⟨-, hreturns⟩ | ⟨parts, -, hcompile, hreturns⟩⟩ :=
    Script.enquoted_returns (show Text.byte '\'' ∈ quotes by decide +kernel) "it's $5" [] none
      (show Value.ofGlobals [] = .ok [] from rfl) ⟨fun _ => none, []⟩
  · exact hreturns
  · refine hreturns ?_
    rw [hcompile] at hops
    have hlength := congrArg List.length (Option.some.inj hops)
    rw [List.length_map, List.length_append, List.length_map] at hlength
    have hfive : parts.length + 2 = 7 := hlength
    have hlimit : Stack.limit = 1024 := rfl
    omega

end

end Bareword
