import Bareword.Value.Args
import Mathlib.Data.List.Nodup

/-! # Arguments and parameters

A call binds every parameter of a function once: those that are named to their arguments, and the others, as
they are declared, to the positional arguments. Parameters that are declared again have no part in this.

* `Closure.unnamed`: the parameters that are left to the positional arguments.
* `Closure.Accepts`: arguments that fit the parameters.
* `Closure.Binds`: variables that hold every argument under its parameter.
* `Closure.bind_exact`: the arguments that fit are bound so, and all others are refused.
-/

namespace Bareword
set_option autoImplicit false

/-! ## Lists without repetitions -/

theorem nodup_eraseDups {α : Type} [BEq α] [LawfulBEq α] : (as : List α) → as.eraseDups.Nodup
  | [] => List.nodup_nil
  | a :: as => by
    rw [List.eraseDups_cons, List.nodup_cons]
    exact ⟨by simp, nodup_eraseDups _⟩
termination_by as => as.length
decreasing_by exact Nat.lt_succ_of_le (List.length_filter_le _ _)

namespace Closure

/-- Some of the parameters with the values of the positional arguments, and with null when these are used
up. -/
def dealt (params : List Text) (left : List Value) : Vars :=
  params.mapIdx fun i p => (p, left[i]?.getD .null)

/-- The first declarations of the parameters that have no value yet. -/
def waiting (params : List Text) (vars : Vars) : List Text :=
  (params.filter fun p => !(vars.map (·.1)).contains p).eraseDups

/-! ## Filling parameters -/

section Filling
variable {p : Text} {params : List Text} {vars : Vars} {left : List Value}

theorem lookup_isSome : (vars.lookup p).isSome = (vars.map (·.1)).contains p := by
  induction vars with
  | nil => rfl
  | cons x vars ih =>
    obtain ⟨n, v⟩ := x
    rw [List.lookup_cons, List.map_cons, List.contains_cons]
    cases p == n with
    | true => rfl
    | false => exact ih

theorem waiting_cons_of_bound (h : (vars.lookup p).isSome = true) :
    waiting (p :: params) vars = waiting params vars := by
  rw [lookup_isSome] at h
  rw [waiting, List.filter_cons_of_neg (by rw [h]; decide), waiting]

theorem waiting_cons_of_free (h : ¬ (vars.lookup p).isSome = true) (v : Value) :
    waiting (p :: params) vars = p :: waiting params (vars ++ [(p, v)]) := by
  rw [lookup_isSome, Bool.not_eq_true] at h
  rw [waiting, List.filter_cons_of_pos (by rw [h]; rfl), List.eraseDups_cons, List.filter_filter, waiting]
  congr 3
  funext q
  have hlast : ([(p, v)].map (·.1)).contains q = (q == p) := Bool.or_false _
  rw [List.map_append, List.contains_append, Bool.not_or, hlast, Bool.and_comm]

theorem dealt_cons_nil : dealt (p :: params) [] = (p, .null) :: dealt params [] := List.mapIdx_cons

theorem dealt_cons_cons (v : Value) : dealt (p :: params) (v :: left) = (p, v) :: dealt params left :=
  List.mapIdx_cons

/-- The parameters that have no value get the positional arguments one by one. -/
theorem fill_eq (params : List Text) (vars : Vars) (left : List Value) :
    fill params vars left =
      (vars ++ dealt (waiting params vars) left, left.drop (waiting params vars).length) := by
  induction params generalizing vars left with
  | nil => exact Prod.ext (List.append_nil _).symm rfl
  | cons p params ih =>
    unfold fill
    split
    · rename_i h
      rw [ih, waiting_cons_of_bound h]
    · rename_i h
      cases left with
      | nil =>
        dsimp only
        rw [waiting_cons_of_free h .null, ih, dealt_cons_nil, List.append_assoc, List.drop_nil, List.drop_nil]
        rfl
      | cons v left =>
        dsimp only
        rw [waiting_cons_of_free h v, ih, dealt_cons_cons, List.append_assoc, List.length_cons,
          List.drop_succ_cons]
        rfl

end Filling

/-! ## Binding arguments -/

section Binding
variable {c : Closure} {args : Args} {vars : Vars}

/-- The parameters that the arguments do not name, in the order of their first declarations. -/
def unnamed (c : Closure) (args : Args) : List Text := (c.params.filter fun p => !args.names.contains p).eraseDups

/-- Every argument with a name has a parameter, and there are enough others for the rest. -/
structure Accepts (c : Closure) (args : Args) : Prop where
  named : ∀ name ∈ args.names, name ∈ c.params
  positional : args.positional.length ≤ (c.unnamed args).length

/-- The variables are the parameters, and each has its argument or is null. -/
structure Binds (c : Closure) (args : Args) (vars : Vars) : Prop where
  keys : ∀ name, name ∈ vars.map (·.1) ↔ name ∈ c.params
  /-- If no two arguments have the same name, no variable is there twice. -/
  once : args.names.Nodup → (vars.map (·.1)).Nodup
  named : ∀ name ∈ args.names, vars.lookup name = args.named? name
  positional : ∀ (i : Nat) (name : Text), (c.unnamed args)[i]? = some name →
    vars.lookup name = some (args.positional[i]?.getD .null)
  /-- Every argument is there once, and all other values are null. -/
  values : vars.map (·.2) = args.named.map (·.2) ++ args.positional ++
    List.replicate ((c.unnamed args).length - args.positional.length) .null

theorem mem_unnamed {name : Text} : name ∈ c.unnamed args ↔ name ∈ c.params ∧ name ∉ args.names := by
  rw [unnamed, List.mem_eraseDups, List.mem_filter, Bool.not_eq_true', List.contains_eq_mem, decide_eq_false_iff_not]

theorem map_fst_dealt (params : List Text) (left : List Value) : (dealt params left).map (·.1) = params := by
  induction params generalizing left with
  | nil => rfl
  | cons p params ih =>
    cases left with
    | nil => rw [dealt_cons_nil, List.map_cons, ih]
    | cons v left => rw [dealt_cons_cons, List.map_cons, ih]

theorem map_snd_dealt {params : List Text} {left : List Value} (h : left.length ≤ params.length) :
    (dealt params left).map (·.2) = left ++ List.replicate (params.length - left.length) .null := by
  induction params generalizing left with
  | nil =>
    obtain rfl := List.eq_nil_of_length_eq_zero (Nat.le_zero.mp h)
    rfl
  | cons p params ih =>
    cases left with
    | nil =>
      rw [dealt_cons_nil, List.map_cons, ih (Nat.zero_le _)]
      rfl
    | cons v left =>
      rw [dealt_cons_cons, List.map_cons, ih (Nat.le_of_succ_le_succ h), List.length_cons, List.length_cons,
        Nat.succ_sub_succ]
      rfl

theorem lookup_dealt {params : List Text} {left : List Value} (hnodup : params.Nodup) {i : Nat} {name : Text}
    (h : params[i]? = some name) : (dealt params left).lookup name = some (left[i]?.getD .null) := by
  induction params generalizing left i with
  | nil => cases h
  | cons p params ih =>
    obtain ⟨hp, hnodup⟩ := List.nodup_cons.mp hnodup
    cases i with
    | zero =>
      obtain rfl := Option.some.inj h
      cases left <;> simp [dealt_cons_nil, dealt_cons_cons]
    | succ i =>
      rw [List.getElem?_cons_succ] at h
      have hne : (name == p) = false := beq_false_of_ne fun heq => hp (heq ▸ List.mem_of_getElem? h)
      cases left with
      | nil =>
        rw [dealt_cons_nil, List.lookup_cons, hne]
        exact ih (i := i) hnodup h
      | cons v left =>
        rw [dealt_cons_cons, List.lookup_cons, hne]
        exact ih (i := i) hnodup h

/-- Arguments that fit are bound as they should. -/
theorem Accepts.binds (h : c.Accepts args) : c.Binds args (args.named ++ dealt (c.unnamed args) args.positional) := by
  have hkeys : (args.named ++ dealt (c.unnamed args) args.positional).map (·.1) = args.names ++ c.unnamed args := by
    rw [List.map_append, map_fst_dealt]
    rfl
  have hsome (name : Text) : (args.named.lookup name).isSome = true ↔ name ∈ args.names := by
    rw [lookup_isSome, List.contains_iff_mem]
    rfl
  refine ⟨fun name => ?_, fun hnodup => ?_, fun name hname => ?_, fun i name hi => ?_, ?_⟩
  · rw [hkeys, List.mem_append, mem_unnamed]
    have := h.named name
    tauto
  · rw [hkeys]
    exact hnodup.append (nodup_eraseDups _) fun name hname hunnamed => (mem_unnamed.mp hunnamed).2 hname
  · obtain ⟨v, hv⟩ := Option.isSome_iff_exists.mp ((hsome name).mpr hname)
    rw [List.lookup_append, Args.named?, hv]
    rfl
  · have hname := (mem_unnamed.mp (List.mem_of_getElem? hi)).2
    rw [← hsome, Option.not_isSome_iff_eq_none] at hname
    rw [List.lookup_append, hname]
    exact lookup_dealt (nodup_eraseDups _) hi
  · rw [List.map_append, map_snd_dealt h.positional, List.append_assoc]

/-- Arguments are bound if and only if they fit the parameters of the function: all named arguments have a
parameter, and there are not more positional ones than parameters that are not named. Then the variables
are exactly the parameters. A parameter that is named has its argument, and the others have the
positional arguments in turn and null after that. All other arguments are refused with the same code. -/
theorem bind_exact (c : Closure) (args : Args) :
    ((∃ vars, c.bind args = .ok vars) ↔ c.Accepts args) ∧
      (∀ vars, c.bind args = .ok vars → c.Binds args vars) ∧
      ∀ e, c.bind args = .error e → e.code = Report.Code.unknownArg.text := by
  rw [bind]
  cases hfind : args.names.find? fun n => !c.params.contains n with
  | some name =>
    have hname : name ∉ c.params := by
      have hp := List.find?_some hfind
      rwa [Bool.not_eq_true', List.contains_eq_mem, decide_eq_false_iff_not] at hp
    refine ⟨⟨(fun ⟨_, h⟩ => nomatch h), fun h => ?_⟩, (fun _ h => nomatch h), fun e h => ?_⟩
    · exact absurd (h.named name (List.mem_of_find?_eq_some hfind)) hname
    · cases h
      rfl
  | none =>
    have hnamed : ∀ name ∈ args.names, name ∈ c.params := by
      intro name hname
      have hp := List.find?_eq_none.mp hfind name hname
      rwa [Bool.not_eq_true', Bool.not_eq_false, List.contains_iff_mem] at hp
    have hfill : fill c.params args.named args.positional =
        (args.named ++ dealt (c.unnamed args) args.positional,
          args.positional.drop (c.unnamed args).length) := fill_eq ..
    dsimp only
    rw [hfill]
    dsimp only
    split
    · rename_i hleft
      have haccepts : c.Accepts args := ⟨hnamed, List.drop_eq_nil_iff.mp (List.isEmpty_iff.mp hleft)⟩
      refine ⟨⟨fun _ => haccepts, fun _ => ⟨_, rfl⟩⟩, fun vars h => ?_, fun _ h => nomatch h⟩
      cases h
      exact haccepts.binds
    · rename_i hleft
      refine ⟨⟨(fun ⟨_, h⟩ => nomatch h), fun h => ?_⟩, (fun _ h => nomatch h), fun e h => ?_⟩
      · exact absurd (List.isEmpty_iff.mpr (List.drop_eq_nil_iff.mpr h.positional)) hleft
      · cases h
        rfl

/-- A parameter that is declared twice and one that is named. -/
theorem bind_exact_repeated :
    let c : Closure := ⟨0, ["x", "y", "x", "z"], 0, 0⟩
    let args : Args := ⟨[.bool true], [("y", .bool false)]⟩
    let vars : Vars := [("y", .bool false), ("x", .bool true), ("z", .null)]
    c.bind args = .ok vars ∧ c.Accepts args ∧ c.Binds args vars := by
  intro c args vars
  have hbind : c.bind args = .ok vars := rfl
  obtain ⟨haccepts, hbinds, -⟩ := bind_exact c args
  exact ⟨hbind, haccepts.mp ⟨vars, hbind⟩, hbinds vars hbind⟩

end Binding
end Closure
end Bareword
