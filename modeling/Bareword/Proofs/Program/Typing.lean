import Bareword.Expr.Compile
import Bareword.Proofs.Expr.Sound
import Bareword.Proofs.Machine.Layout

/-! # Layouts of generated code

How generated code changes the layout of the stack, whatever numbers its labels get.

* `Gen.Typed`: the code takes one layout to another. It may leave for a label that stands elsewhere,
  where a layout is expected as well.
* `Expr.typed`: the code of a sound expression leaves one value on the stack.
-/

namespace Bareword
set_option autoImplicit false
open Machine (Slot Effect namedSlots callSlots)

/-- The code takes the first layout to the second. It may also leave for the label of `exit`, with the
layout that goes with it. -/
inductive Gen.Typed : Option (Text × List Slot) → List Slot → List Slot → Gen → Prop where
  | nil {exit : Option (Text × List Slot)} {σ : List Slot} : Typed exit σ σ .nil
  | append {exit : Option (Text × List Slot)} {σ ρ τ : List Slot} {g h : Gen} (hg : Typed exit σ ρ g)
      (hh : Typed exit ρ τ h) : Typed exit σ τ (g ++ h)
  | weaken {exit : Option (Text × List Slot)} {σ τ : List Slot} {g : Gen} (h : Typed none σ τ g) :
      Typed exit σ τ g
  | push {exit : Option (Text × List Slot)} {σ : List Slot} {s : Slot} {span : Span}
      {value : Literal} {v : Value} (hv : Value.ofLiteral value = .ok v) (hs : s.Takes v) :
      Typed exit σ (s :: σ) (.push span value)
  | instr {exit : Option (Text × List Slot)} {σ τ : List Slot} {i : Instruction}
      (hmode : i.mode = .none) (h : Effect i.op i.count σ τ) : Typed exit σ τ (.instr i)
  | jumpOver {exit : Option (Text × List Slot)} {σ : List Slot} {g : Gen} (stopOn : Bool) (span : Span)
      (h : Typed exit σ σ g) :
      Typed exit (.any :: σ) σ (.jumpOver (if stopOn then .jumpIfTrue else .jumpIfFalse) span g)
  | leave {σ τ : List Slot} {label : Text} {span : Span} :
      Typed (some (label, σ)) σ τ (.instr { op := .jump, mode := .label, label, span })
  | function {exit : Option (Text × List Slot)} {σ : List Slot} {span : Span} {params : List Text}
      {body : Gen} (h : Typed none [] [.any] body) :
      Typed exit σ (.any :: σ) (.function span params body)
  | withEnd {exit : Option (Text × List Slot)} {σ τ : List Slot} {g : Text → Gen} {span : Span}
      (h : ∀ label, Typed (some (label, τ)) σ τ (g label)) :
      Typed exit σ τ (.withEnd fun label => g label ++ .instr { op := .label, name := label, span })
  | withTemporary {exit : Option (Text × List Slot)} {σ τ : List Slot} {g : Text → Gen}
      (h : ∀ name, Typed exit σ τ (g name)) : Typed exit σ τ (.withTemporary g)

namespace Gen.Typed

theorem load {σ : List Slot} (span : Span) (name : Text) :
    Typed none σ (.any :: σ) (.load span name) :=
  .instr rfl (.load (.inl rfl))

theorem value {σ : List Slot} {span : Span} {value : Literal} {v : Value}
    (hv : Value.ofLiteral value = .ok v) : Typed none σ (.any :: σ) (.push span value) :=
  .push hv (Value.isPlain_ofLiteral hv)

theorem count {σ : List Slot} (span : Span) (n : Nat) :
    Typed none σ (.count n :: σ) (.push span (.ofNat n)) :=
  .push (s := .count n) rfl rfl

theorem name {σ : List Slot} (span : Span) (t : Text) :
    Typed none σ (.name :: σ) (.push span (.ofText t)) :=
  .push (s := .name) rfl ⟨t, rfl⟩

end Gen.Typed

theorem replicate_append_cons (n : Nat) (s : Slot) (σ : List Slot) :
    List.replicate n s ++ s :: σ = List.replicate (n + 1) s ++ σ := by
  rw [List.replicate_succ', List.append_assoc, List.singleton_append]

theorem namedSlots_append_cons (n : Nat) (σ : List Slot) :
    namedSlots n ++ .any :: .name :: σ = namedSlots (n + 1) ++ σ := by
  induction n with
  | zero => rfl
  | succ n ih =>
    show Slot.any :: Slot.name :: (namedSlots n ++ .any :: .name :: σ) = _
    rw [ih]
    rfl

section Expressions
open Gen (Typed)

mutual

theorem Expr.typed : (e : Expr) → e.Sound → ∀ σ, Typed none σ (.any :: σ) e.gen
  | .literal _ _, ⟨_, hv⟩, _ => .value hv
  | .name _ _, _, _ => .load _ _
  | .field _ _ _, _, _ => .append (.load _ _) (.instr rfl (.keep (.inr rfl)))
  | .bare _ _, _, _ => .instr rfl (.load (.inr rfl))
  | .concat _ parts, h, σ => .append (Expr.typed_parts parts h σ) (.instr rfl (.concat rfl rfl))
  | .binary _ _ left right, ⟨⟨_, hop⟩, hl, hr⟩, σ =>
    .append (.append (left.typed hl σ) (right.typed hr _)) (.instr rfl (.binary hop))
  | .shortCircuit span stopOn left right, ⟨hl, hr⟩, σ =>
    -- The left value is kept for the jump that may leave the right one out.
    .append (.append (left.typed hl σ) (.instr rfl (.dup rfl)))
      (.jumpOver stopOn span (.append (.instr rfl (.pop rfl)) (right.typed hr σ)))
  | .assign _ _ value, h, σ => .append (value.typed h σ) (.instr rfl (.keep (.inl rfl)))
  | .pipe span first stages, ⟨hf, hs⟩, σ =>
    .append (first.typed hf σ) (.withTemporary fun temporary =>
      Expr.typed_stages span temporary stages hs σ)
  | .function _ _ [], _, _ => .function (.value rfl)
  | .function span _ (first :: rest), h, _ =>
    .function (.append (first.typed h.1 []) (Expr.typed_rest span rest h.2 []))
  | .call call, h, σ => call.typed call.span none h σ
  | .choose span branches otherwise, ⟨hb, ho⟩, σ =>
    .withEnd fun label =>
      .append (Expr.typed_branches span label branches hb σ) (.weaken (otherwise.typed ho σ))
  | .block _ [], _, _ => .value rfl
  | .block span (first :: rest), h, σ =>
    .append (first.typed h.1 σ) (Expr.typed_rest span rest h.2 σ)

theorem Expr.typed_parts : (es : List Expr) → Expr.AllSound es → ∀ σ,
    Typed none σ (List.replicate es.length .any ++ σ) (Expr.genParts es)
  | [], _, _ => .nil
  | e :: es, h, σ => by
    have hrest := Expr.typed_parts es h.2 (.any :: σ)
    rw [replicate_append_cons] at hrest
    exact .append (e.typed h.1 σ) hrest

theorem Expr.typed_rest (span : Span) : (es : List Expr) → Expr.AllSound es → ∀ σ,
    Typed none (.any :: σ) (.any :: σ) (Expr.genRest span es)
  | [], _, _ => .nil
  | e :: es, h, σ =>
    .append (.append (.instr rfl (.pop rfl)) (e.typed h.1 σ)) (Expr.typed_rest span es h.2 σ)

theorem Expr.typed_stages (span : Span) (temporary : Text) : (stages : List Call) →
    Call.AllSound stages → ∀ σ,
    Typed none (.any :: σ) (.any :: σ) (Expr.genStages span temporary stages)
  | [], _, _ => .nil
  | stage :: stages, h, σ =>
    .append (.append (.append (.instr rfl (.keep (.inl rfl))) (.instr rfl (.pop rfl)))
      (stage.typed span (some temporary) h.1 σ)) (Expr.typed_stages span temporary stages h.2 σ)

theorem Expr.typed_branches (span : Span) (label : Text) : (branches : List Branch) →
    Branch.AllSound branches → ∀ σ,
    Typed (some (label, .any :: σ)) σ σ (Expr.genBranches span label branches)
  | [], _, _ => .nil
  | .mk condition block :: branches, ⟨hc, hb, hrest⟩, σ =>
    .append (.append (.weaken (condition.typed hc σ))
      (.jumpOver false span (.append (.weaken (block.typed hb σ)) .leave)))
      (Expr.typed_branches span label branches hrest σ)

theorem Call.typed (around : Span) (piped : Option Text) : (c : Call) → c.Sound → ∀ σ,
    Typed none σ (.any :: σ) (c.gen around piped)
  | .mk span callee positional named, ⟨hp, hn⟩, σ => by
    have hnamed := fun ρ => NamedArg.typed_all around (piped.getD []) named hn ρ
    have hpositional := fun ρ => Arg.typed_all (piped.getD []) positional hp ρ
    have hcall : ∀ n : Nat, Typed none
        (.count named.length :: .count n ::
          (namedSlots named.length ++ (List.replicate n .any ++ .any :: σ))) (.any :: σ)
        (.instr { op := .call, span }) := by
      intro n
      have heffect : Effect Opcode.call 0 (callSlots n named.length ++ σ) (.any :: σ) := .call rfl
      rw [callSlots] at heffect
      simp only [List.cons_append, List.append_assoc, List.nil_append] at heffect
      exact .instr rfl heffect
    unfold Call.gen
    dsimp only
    cases piped.isSome && !(Call.mk span callee positional named).takesPiped with
    | false =>
      exact .append (.append (.append (.append (.append (.append (.load _ _) .nil) (hpositional _))
        (hnamed _)) (.count _ _)) (.count _ _)) (hcall _)
    | true =>
      have hall := hpositional (.any :: .any :: σ)
      rw [replicate_append_cons] at hall
      exact .append (.append (.append (.append (.append (.append (.load _ _) (.load _ _)) hall)
        (hnamed _)) (.count _ _)) (.count _ _)) (hcall _)

theorem Arg.typed (temporary : Text) : (a : Arg) → a.Sound → ∀ σ,
    Typed none σ (.any :: σ) (a.gen temporary)
  | .value e, h, σ => e.typed h σ
  | .piped _, _, _ => .load _ _

theorem Arg.typed_all (temporary : Text) : (as : List Arg) → Arg.AllSound as → ∀ σ,
    Typed none σ (List.replicate as.length .any ++ σ) (Arg.genAll temporary as)
  | [], _, _ => .nil
  | a :: as, h, σ => by
    have hrest := Arg.typed_all temporary as h.2 (.any :: σ)
    rw [replicate_append_cons] at hrest
    exact .append (a.typed temporary h.1 σ) hrest

theorem NamedArg.typed_all (around : Span) (temporary : Text) : (ns : List NamedArg) →
    NamedArg.AllSound ns → ∀ σ,
    Typed none σ (namedSlots ns.length ++ σ) (NamedArg.genAll around temporary ns)
  | [], _, _ => .nil
  | .mk name arg :: ns, h, σ => by
    have hrest := NamedArg.typed_all around temporary ns h.2 (.any :: .name :: σ)
    rw [namedSlots_append_cons] at hrest
    exact .append (.append (.name _ _) (arg.typed temporary h.1 _)) hrest

end

theorem Expr.typed_statements (span : Span) : (es : List Expr) → Expr.AllSound es → ∀ σ,
    Typed none σ (.any :: σ) (Expr.genStatements span es)
  | [], _, _ => .value rfl
  | e :: es, h, σ => .append (e.typed h.1 σ) (Expr.typed_rest span es h.2 σ)

end Expressions
end Bareword
