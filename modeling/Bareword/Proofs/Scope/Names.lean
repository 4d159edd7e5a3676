import Bareword.Scope.Context
import Bareword.Proofs.Scope.Records

/-! # The names of a parse

What a context says about names, without the arena: the names that are bound, from the innermost scope
to the root, and those that wait.

* `Names`: bound and waiting names, with the steps of a parse on them.
* `Context.Sound`: a context whose scope is in a sound arena.
* `Sound.shift`, `Sound.reduce`, `Sound.rewind`: the steps of a context are those on its names.
-/

namespace Bareword.Scope
set_option autoImplicit false
open Digest (Hasher)
open Arena (bindTop dropTop)

/-- The names that are bound and those that wait to be bound. -/
structure Names where
  bound : List (List Text)
  pending : List Text
  paramStart : Option Nat

namespace Names

/-- The names at the root, before anything is read. -/
def start : Names := ⟨[[]], [], none⟩

def has (n : Names) (name : Text) : Bool := n.bound.any (holds · name)

def shift (n : Names) (kind : Token.Kind) (text : Text) : Names :=
  match kind with
  | .kwFn => { n with paramStart := some n.pending.length }
  | .identifier => if n.paramStart.isSome then { n with pending := n.pending ++ [text] } else n
  | .assignable => { n with pending := n.pending ++ [text] }
  | _ => n

def reduce (n : Names) (kind : Tree.Kind) : Names :=
  match kind with
  | .assign =>
    match n.pending.getLast? with
    | none => n
    | some name => { n with bound := bindTop [name] n.bound, pending := n.pending.dropLast }
  | .params =>
    let start := n.paramStart.getD n.pending.length
    { bound := (n.pending.drop start).foldl bind [] :: n.bound
      pending := n.pending.take start
      paramStart := none }
  | .functionDef => { n with bound := dropTop n.bound }
  | _ => n

end Names

namespace Context

/-- What a context says about names. -/
def names (c : Context) : Names := ⟨c.bindings, c.pending, c.paramStart⟩

theorem has_eq (c : Context) : c.has = c.names.has := by
  funext name
  exact Arena.has?_getD c.arena c.scope name

/-- The scope of the context is in a sound arena, and what waits are names. -/
structure Sound (hasher : Hasher) (c : Context) : Prop where
  arena : c.arena.Sound hasher
  lt : c.scope < c.arena.size
  pending : ∀ name ∈ c.pending, Token.Bindable name

variable {hasher : Hasher} {c : Context}

theorem Sound.new (hasher : Hasher) : (Context.new hasher).Sound hasher :=
  ⟨.new hasher, Nat.one_pos, fun _ h => nomatch h⟩

theorem names_new (hasher : Hasher) : (Context.new hasher).names = .start := by
  have hroot : (Arena.new hasher).get? root = some ⟨none, [], hasher (signature [] none)⟩ := rfl
  have hbindings := (Arena.Sound.new hasher).bindings_eq_cons hroot
  change Names.mk ((Arena.new hasher).bindings root) [] none = _
  rw [hbindings]
  rfl

theorem Sound.bindable (h : c.Sound hasher) {name : Text} (hname : c.has name = true) : Token.Bindable name := by
  rw [has_eq, Names.has, List.any_eq_true] at hname
  obtain ⟨names, hnames, hholds⟩ := hname
  exact h.arena.bindable_of_mem hnames (mem_of_holds hholds)

theorem Sound.shift (h : c.Sound hasher) {kind : Token.Kind} {text : Text} (hadmits : kind.Admits text) :
    (c.shift kind text).Sound hasher ∧ (c.shift kind text).names = c.names.shift kind text ∧
      (c.shift kind text).arena = c.arena := by
  have hmore (hname : Token.Bindable text) : ∀ name ∈ c.pending ++ [text], Token.Bindable name := by
    intro name hmem
    rw [List.mem_append, List.mem_singleton] at hmem
    rcases hmem with hold | rfl
    · exact h.pending name hold
    · exact hname
  rw [Context.shift.eq_def, Names.shift.eq_def]
  cases kind with
  | kwFn => exact ⟨⟨h.arena, h.lt, h.pending⟩, rfl, rfl⟩
  | identifier =>
    dsimp only
    rw [inParams]
    change _ ∧ _ = (if c.paramStart.isSome = true then _ else _) ∧ _
    cases c.paramStart.isSome with
    | true => exact ⟨⟨h.arena, h.lt, hmore (hadmits.name (.inl rfl))⟩, rfl, rfl⟩
    | false => exact ⟨h, rfl, rfl⟩
  | assignable => exact ⟨⟨h.arena, h.lt, hmore (hadmits.name (.inr rfl))⟩, rfl, rfl⟩
  | _ => exact ⟨h, rfl, rfl⟩

theorem bindIn_eq {scope id : Nat} {names : List Text} {b : Arena}
    (h : c.arena.add hasher scope names = some (b, id)) :
    c.bindIn hasher scope names = { c with arena := b, scope := id } := by
  rw [bindIn, h]

theorem Sound.reduceAssign (h : c.Sound hasher) :
    (c.reduceAssign hasher).Sound hasher ∧ (c.reduceAssign hasher).names = c.names.reduce .assign ∧
      c.arena.Extends (c.reduceAssign hasher).arena := by
  rw [Context.reduceAssign, Names.reduce]
  change _ ∧ _ = (match c.pending.getLast? with | none => _ | some name => _) ∧ _
  cases hlast : c.pending.getLast? with
  | none => exact ⟨h, rfl, .refl _⟩
  | some name =>
    have hname : ∀ x ∈ [name], Token.Bindable x := by
      intro x hx
      rw [List.mem_singleton.mp hx]
      exact h.pending name (List.mem_of_getLast? hlast)
    obtain ⟨b, id, hadd, hsound, hext, hlt, hbindings⟩ := h.arena.add h.lt hname
    dsimp only
    rw [bindIn_eq hadd]
    refine ⟨⟨hsound, hlt, fun x hx => h.pending x (List.dropLast_subset _ hx)⟩, ?_, hext⟩
    exact congrArg (Names.mk · c.pending.dropLast c.paramStart) hbindings

theorem Sound.reduceParams (h : c.Sound hasher) :
    (c.reduceParams hasher).Sound hasher ∧ (c.reduceParams hasher).names = c.names.reduce .params ∧
      c.arena.Extends (c.reduceParams hasher).arena := by
  obtain ⟨b, id, hpush, hb, hext, hlt, hbindings⟩ := h.arena.push h.lt
  have hnames : ∀ name ∈ c.pending.drop (c.paramStart.getD c.pending.length), Token.Bindable name :=
    fun name hname => h.pending name (List.mem_of_mem_drop hname)
  obtain ⟨b', id', hadd, hsound, hext', hlt', hbindings'⟩ := hb.add hlt hnames
  rw [Context.reduceParams, hpush]
  dsimp only
  rw [bindIn_eq (c := { c with arena := b }) hadd]
  refine ⟨⟨hsound, hlt', fun x hx => h.pending x (List.mem_of_mem_take hx)⟩, ?_, hext.trans hext'⟩
  rw [hbindings, bindTop] at hbindings'
  exact congrArg (Names.mk · (c.pending.take (c.paramStart.getD c.pending.length)) none) hbindings'

/-- Completing a node does to the names of a context what it does to names. -/
theorem Sound.reduce (h : c.Sound hasher) (kind : Tree.Kind) :
    (c.reduce hasher kind).Sound hasher ∧ (c.reduce hasher kind).names = c.names.reduce kind ∧
      c.arena.Extends (c.reduce hasher kind).arena := by
  cases kind with
  | assign => exact h.reduceAssign
  | params => exact h.reduceParams
  | functionDef =>
    obtain ⟨id, hpop, hlt, hbindings⟩ := h.arena.pop h.lt
    rw [Context.reduce, hpop]
    exact ⟨⟨h.arena, hlt, h.pending⟩, congrArg (Names.mk · c.pending c.paramStart) hbindings, .refl _⟩
  | _ => exact ⟨h, rfl, .refl _⟩

/-- A context is as it was in every later arena. -/
theorem Sound.rewind (h : c.Sound hasher) {now : Context} (hnow : now.arena.Sound hasher)
    (hext : c.arena.Extends now.arena) :
    (c.rewind now).Sound hasher ∧ (c.rewind now).names = c.names := by
  refine ⟨⟨hnow, Nat.lt_of_lt_of_le h.lt hext.size_le, h.pending⟩, ?_⟩
  exact congrArg (Names.mk · c.pending c.paramStart) (Arena.bindings_of_extends hext h.lt)

end Context
end Bareword.Scope
