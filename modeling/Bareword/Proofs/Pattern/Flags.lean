import Bareword.Expr.OfTree
import Bareword.Proofs.Token.Runs

/-! # The order of flags

Flags in front of a pattern are set one after the other, and which one comes first makes no
difference. What follows them is read from the same state, apart from the pattern as a whole, which
only faults mention.

* `Blind`: a step of reading that does not depend on the pattern as a whole.
* `check_withFlags`: whether a pattern with flags is one does not depend on their order.
* `perm_inlineFlags`: a literal is checked and run with the same flags.
-/

namespace Bareword.Pattern
set_option autoImplicit false

/-! ## Steps that do not look at the pattern as a whole -/

/-- A state without the pattern as a whole. -/
def State.blank (s : State) : State := { s with whole := [] }

/-- What a step comes to: faults are all alike, and the pattern as a whole is left out. -/
def verdict {α : Type} (r : Except Fault (α × State)) : Option (α × State) :=
  match r with
  | .ok (a, s) => some (a, s.blank)
  | .error _ => none

/-- The step does not depend on the pattern as a whole. -/
def Blind {α : Type} (x : Reading α) : Prop :=
  ∀ s s' : State, s.blank = s'.blank → verdict (x s) = verdict (x s')

section Steps
variable {α β : Type}

theorem blind_pure (a : α) : Blind (pure a : Reading α) := by
  intro s s' h
  show some (a, s.blank) = some (a, s'.blank)
  rw [h]

theorem blind_throw (e : Fault) : Blind (throw e : Reading α) := fun _ _ _ => rfl

theorem blind_lift (x : Except Fault α) : Blind (liftM x : Reading α) := by
  cases x with
  | error e => exact fun _ _ _ => rfl
  | ok a => exact blind_pure a

theorem blind_bind {x : Reading α} {f : α → Reading β} (hx : Blind x) (hf : ∀ a, Blind (f a)) :
    Blind (x >>= f) := by
  intro s s' h
  have hv := hx s s' h
  show verdict (StateT.bind x f s) = verdict (StateT.bind x f s')
  rw [StateT.bind, StateT.bind]
  cases h₁ : x s with
  | error e =>
    cases h₂ : x s' with
    | error e' => rfl
    | ok r =>
      rw [h₁, h₂] at hv
      cases hv
  | ok r =>
    cases h₂ : x s' with
    | error e' =>
      rw [h₁, h₂] at hv
      cases hv
    | ok r' =>
      rw [h₁, h₂] at hv
      obtain ⟨a, t⟩ := r
      obtain ⟨a', t'⟩ := r'
      obtain ⟨rfl, ht⟩ := Prod.mk.inj (Option.some.inj hv)
      exact hf a t t' ht

theorem blind_modify {f : State → State} (hf : ∀ s w, (f { s with whole := w }).blank = (f s).blank) :
    Blind (modify f : Reading Unit) := by
  intro s s' h
  show some ((), (f s).blank) = some ((), (f s').blank)
  have hs : (f s).blank = (f s.blank).blank := (hf s []).symm
  have hs' : (f s').blank = (f s'.blank).blank := (hf s' []).symm
  rw [hs, hs', h]

theorem blind_get {f : State → Reading α}
    (hf : ∀ s w, verdict (f { s with whole := w } { s with whole := w }) = verdict (f s s)) :
    Blind (get >>= f) := by
  intro s s' h
  show verdict (f s s) = verdict (f s' s')
  rw [← hf s [], ← hf s' []]
  show verdict (f s.blank s.blank) = verdict (f s'.blank s'.blank)
  rw [h]

theorem bind_of_ok {x : Reading α} {f : α → Reading β} {s s' : State} {a : α} (h : x s = .ok (a, s')) :
    (x >>= f) s = f a s' := by
  show StateT.bind x f s = _
  rw [StateT.bind, h]
  rfl

theorem blind_ite {c : Prop} [Decidable c] {x y : Reading α} (hx : Blind x) (hy : Blind y) :
    Blind (if c then x else y) := by
  split
  · exact hx
  · exact hy

theorem Blind.whole {x : Reading α} (hx : Blind x) (s : State) (w : Text) :
    verdict (x { s with whole := w }) = verdict (x s) := hx _ _ rfl

theorem blind_mapM {x : α → Reading β} (hx : ∀ a, Blind (x a)) (as : List α) :
    Blind (as.mapM x) := by
  induction as with
  | nil => exact blind_pure []
  | cons a as ih =>
    rw [List.mapM_cons]
    exact blind_bind (hx a) fun b => blind_bind ih fun bs => blind_pure _

theorem blind_forIn {f : α → β → Reading (ForInStep β)} (hf : ∀ a b, Blind (f a b)) (as : List α)
    (b : β) : Blind (forIn as b f) := by
  induction as generalizing b with
  | nil => exact blind_pure b
  | cons a as ih =>
    rw [List.forIn_cons]
    refine blind_bind (hf a b) fun r => ?_
    cases r with
    | done b => exact blind_pure b
    | yield b => exact ih b

end Steps

theorem blind_refuseWhole {α : Type} (reason : Reason) : Blind (refuseWhole reason : Reading α) :=
  blind_get fun _ _ => rfl

theorem Blind.set {α : Type} {f : Unit → Reading α} (hf : Blind (f ())) {t t' : State}
    (ht : t.blank = t'.blank) (s s' : State) :
    verdict ((MonadStateOf.set t >>= f : Reading α) s) =
      verdict ((MonadStateOf.set t' >>= f : Reading α) s') := hf t t' ht

/-! ## Nodes and the stack -/

theorem blind_takeRecord : Blind takeRecord := by
  have hblank : ∀ s w, verdict (takeRecord { s with whole := w }) = verdict (takeRecord s) := by
    intro s w
    obtain ⟨whole, bound, flags, stack, spare, made, weight, repeats, keepsSizes⟩ := s
    cases spare <;> rfl
  intro s s' h
  rw [← hblank s [], ← hblank s' []]
  exact congrArg (fun t => verdict (takeRecord t)) h

theorem blind_giveBack (n : Node) : Blind (giveBack n) := blind_modify fun _ _ => rfl

theorem blind_make (op : Op) (flags : Flags) (subs : List Node) : Blind (make op flags subs) :=
  blind_bind blind_takeRecord fun _ => blind_pure _

theorem blind_checkSize (n : Node) : Blind (checkSize n) := by
  refine blind_get fun s w => ?_
  dsimp only
  split
  all_goals
    split
    · refine Blind.set ?_ (by rfl) _ _
      exact blind_pure _
    · refine Blind.set ?_ (by rfl) _ _
      exact blind_ite (blind_refuseWhole _) (blind_pure _)

theorem blind_checkLimits (n : Node) : Blind (checkLimits n) := by
  refine blind_get fun s w => ?_
  have hrest : Blind (do
      let n ← checkSize n
      if n.height > maxHeight then refuseWhole .tooDeep
      return n) := by
    refine blind_bind (blind_checkSize n) fun n => ?_
    exact blind_ite (blind_bind (blind_refuseWhole _) fun _ => blind_pure _) (blind_pure _)
  exact (blind_ite (blind_bind (blind_refuseWhole _) fun _ => hrest) hrest).whole s w

theorem blind_joinLiterals (next : Option (Nat × Flags)) : Blind (joinLiterals next) := by
  refine blind_get fun s w => ?_
  obtain ⟨whole, bound, flags, stack, spare, made, weight, repeats, keepsSizes⟩ := s
  dsimp only
  match stack with
  | .node ⟨op, f, subs, height, size?⟩ :: .node ⟨op', f', subs', height', size?'⟩ :: rest =>
    cases op with
    | literal codes =>
      cases op' with
      | literal codes' =>
        by_cases hcase : f.ignoresCase = f'.ignoresCase
        · simp only [if_pos hcase]
          cases next with
          | none =>
            refine Blind.set ?_ (by rfl) _ _
            exact blind_bind (blind_giveBack _) fun _ => blind_pure _
          | some entry =>
            refine Blind.set ?_ (by rfl) _ _
            exact blind_pure _
        · simp only [if_neg hcase]
          rfl
      | _ => rfl
    | _ => rfl
  | [] | [.node _] | .opening _ _ :: _ | .bar :: _ | .node _ :: .opening _ _ :: _
  | .node _ :: .bar :: _ => rfl

theorem blind_pushChecked (n : Node) : Blind (pushChecked n) :=
  blind_bind (blind_checkLimits n) fun _ => blind_modify fun _ _ => rfl

theorem blind_push (n : Node) : Blind (push n) := by
  refine blind_bind (blind_modify fun _ _ => rfl) fun _ => blind_get fun s w => ?_
  refine (blind_bind (blind_joinLiterals _) fun joined => ?_).whole s w
  refine blind_ite (blind_pure _) ?_
  split
  · exact blind_pushChecked _
  · exact blind_pushChecked _

theorem blind_pushNew (op : Op) : Blind (pushNew op) :=
  blind_get fun s w => (blind_bind (blind_make op s.flags []) fun n => blind_push n).whole s w

theorem blind_pushLiteral (c : Nat) : Blind (pushLiteral c) :=
  blind_get fun s w => (blind_pushNew _).whole s w

theorem blind_pushMarker (item : Item) : Blind (pushMarker item) := by
  refine blind_bind blind_takeRecord fun _ => blind_bind (blind_joinLiterals none) fun _ => ?_
  refine blind_bind (blind_modify fun _ _ => rfl) fun _ => ?_
  exact blind_bind (blind_checkLimits _) fun _ => blind_pure _

theorem blind_takeNodes : Blind takeNodes := by
  intro s s' h
  show verdict (takeNodes s.blank) = verdict (takeNodes s'.blank)
  rw [h]

theorem blind_hoist (op : Op) (ns : List Node) : Blind (hoist op ns) := by
  refine blind_bind (blind_forIn (fun n parts => ?_) ns #[]) fun _ => blind_pure _
  dsimp only
  exact blind_ite (blind_bind (blind_giveBack n) fun _ => blind_pure _) (blind_pure _)

theorem blind_concat : Blind concat := by
  refine blind_bind (blind_joinLiterals none) fun _ => blind_bind blind_takeNodes fun ns => ?_
  split
  · exact blind_bind (blind_make _ _ _) fun _ => blind_push _
  · exact blind_push _
  · exact blind_bind (blind_make _ _ _) fun _ => blind_bind (blind_hoist _ _) fun _ => blind_push _

/-! ## Alternatives -/

theorem blind_removeText (count : Nat) (n : Node) : Blind (removeText count n) := by
  refine blind_ite ?_ (blind_pure _)
  split
  · exact blind_pure _
  · refine blind_ite (blind_bind (blind_giveBack _) fun _ => ?_) (blind_pure _)
    split
    · exact blind_pure _
    · exact blind_bind (blind_giveBack _) fun _ => blind_pure _
    · exact blind_pure _

theorem blind_removePart (isKept : Bool) (n : Node) : Blind (removePart isKept n) := by
  have hgive : ∀ m : Node, ∀ x : Reading Node, Blind x →
      Blind (if isKept = true then pure PUnit.unit >>= fun _ => x else giveBack m >>= fun _ => x) :=
    fun m x hx => blind_ite (blind_bind (blind_pure _) fun _ => hx)
      (blind_bind (blind_giveBack m) fun _ => hx)
  refine blind_ite ?_ (hgive n _ (blind_make _ _ _))
  split
  · exact blind_pure _
  · refine hgive _ _ ?_
    split
    · exact blind_pure _
    · exact blind_bind (blind_giveBack _) fun _ => blind_pure _
    · exact blind_pure _

theorem blind_mergeAll (ns : List Node) : Blind (mergeAll ns) := by
  unfold mergeAll
  split
  · refine blind_bind (blind_forIn (fun m n => ?_) _ _) fun n => blind_pure _
    exact blind_bind (blind_giveBack m) fun _ => blind_pure _
  · exact blind_pure _

theorem blind_mergeNeighbours (ns : List Node) : Blind (mergeNeighbours ns) := by
  refine blind_bind (blind_forIn (fun n r => ?_) ns _) fun r => ?_
  · refine blind_ite (blind_pure _) ?_
    exact blind_bind (blind_mergeAll _) fun _ => blind_pure _
  · exact blind_bind (blind_mergeAll _) fun _ => blind_pure _

theorem blind_alternatives (fuel : Nat) (ns : List Node) : Blind (alternatives fuel ns) := by
  induction fuel generalizing ns with
  | zero => exact blind_make _ _ _
  | succ fuel ih =>
    unfold alternatives
    refine blind_bind (blind_make _ _ _) fun whole => ?_
    refine blind_bind (blind_hoist _ _) fun ns => ?_
    refine blind_bind (blind_mapM (fun r => ?_) _) fun ns => ?_
    · split
      · exact blind_pure _
      · refine blind_bind (blind_make _ _ _) fun front => ?_
        refine blind_bind (blind_mapM (fun n => ?_) _) fun members => ?_
        · exact blind_bind (blind_removeText _ _) fun _ => blind_checkLimits _
        · exact blind_bind (ih _) fun rest => blind_make _ _ _
    refine blind_bind (blind_mapM (fun r => ?_) _) fun ns => ?_
    · split
      · refine blind_bind (blind_removePart _ _) fun n => blind_bind (blind_checkLimits _) fun n => ?_
        refine blind_bind (blind_mapM (fun n => ?_) _) fun others => ?_
        · exact blind_bind (blind_removePart _ _) fun _ => blind_checkLimits _
        · exact blind_bind (ih _) fun rest => blind_make _ _ _
      · exact blind_pure _
    refine blind_bind (blind_mergeNeighbours _) fun ns => ?_
    dsimp only
    split
    · exact blind_bind (blind_giveBack _) fun _ => blind_pure _
    · exact blind_pure _

theorem blind_swapBar : Blind swapBar := by
  refine blind_get fun s w => ?_
  obtain ⟨whole, bound, flags, stack, spare, made, weight, repeats, keepsSizes⟩ := s
  dsimp only
  split
  · rename_i n m rest
    cases n.rank? with
    | none =>
      refine Blind.set ?_ (by rfl) _ _
      exact blind_pure _
    | some a =>
      cases m.rank? with
      | none =>
        refine Blind.set ?_ (by rfl) _ _
        exact blind_pure _
      | some b =>
        refine Blind.set ?_ (by rfl) _ _
        exact blind_bind (blind_giveBack _) fun _ => blind_pure _
  · refine Blind.set ?_ (by rfl) _ _
    exact blind_pure _
  · rfl

theorem blind_endAlternative : Blind endAlternative := by
  refine blind_bind blind_concat fun _ => blind_bind blind_swapBar fun swapped => ?_
  exact blind_ite (blind_pure _) (blind_pushMarker _)

theorem blind_alternate : Blind alternate := by
  refine blind_bind blind_concat fun _ => blind_bind blind_swapBar fun swapped => ?_
  refine blind_ite (blind_bind (blind_modify fun _ _ => rfl) fun _ => ?_) ?_
  all_goals
    refine blind_bind blind_takeNodes fun ns => ?_
    split
    · exact blind_bind (blind_make _ _ _) fun _ => blind_push _
    · split
      · exact blind_push _
      · refine blind_get fun s w => ?_
        exact (blind_bind (blind_alternatives s.bound _) fun _ => blind_push _).whole s w

/-! ## Patterns -/

theorem blind_repeatTop (op : Op) (before after lastRepeat : Text) :
    Blind (repeatTop op before after lastRepeat) := by
  refine blind_ite (blind_lift _) (blind_get fun s w => ?_)
  obtain ⟨whole, bound, flags, stack, spare, made, weight, repeats, keepsSizes⟩ := s
  match stack with
  | .node sub :: rest =>
    refine (blind_bind (blind_make _ _ _) fun n => blind_bind (blind_checkLimits n) fun n =>
      blind_bind (blind_modify fun _ _ => rfl) fun _ => ?_ : Blind _) _ _ rfl
    split
    · exact blind_ite (blind_lift _) (blind_pure _)
    · exact blind_pure _
  | [] | .opening _ _ :: _ | .bar :: _ => rfl

theorem blind_openGroup (isCapture : Bool) : Blind (openGroup isCapture) :=
  blind_get fun s w => (blind_pushMarker (.opening isCapture s.flags)).whole s w

theorem blind_specialGroup (s : Text) : Blind (specialGroup s) := by
  refine blind_ite ?_ (blind_get fun st w => ?_)
  · split
    · exact blind_bind (blind_lift _) fun _ => blind_throw _
    · refine blind_bind (blind_lift _) fun _ => ?_
      refine blind_ite (blind_bind (blind_openGroup true) fun _ => blind_pure _) (blind_throw _)
  · refine (blind_get fun st' w' => ?_ : Blind _).whole st w
    have hend : ∀ (flags : Flags) (t : Text), Blind (do
        modify fun st : State => { st with flags }
        return t : Reading Text) :=
      fun flags t => blind_bind (blind_modify fun _ _ => rfl) fun _ => blind_pure _
    refine (blind_bind (blind_lift _) fun r => ?_ : Blind _).whole st' w'
    obtain ⟨flags, opens, t⟩ := r
    exact blind_ite (blind_bind (blind_openGroup false) fun _ => hend flags t) (hend flags t)

theorem blind_closeGroup : Blind closeGroup := by
  refine blind_bind blind_alternate fun _ => blind_get fun s w => ?_
  obtain ⟨whole, bound, flags, stack, spare, made, weight, repeats, keepsSizes⟩ := s
  dsimp only
  split
  · refine Blind.set ?_ (by rfl) _ _
    exact blind_push _
  · exact blind_refuseWhole _ _ _ rfl

theorem blind_quotedPart (fuel : Nat) (t : Text) : Blind (quotedPart fuel t) := by
  induction fuel generalizing t with
  | zero => exact blind_pure _
  | succ fuel ih =>
    refine blind_ite (blind_pure _) (blind_bind (blind_lift _) fun r => ?_)
    exact blind_bind (blind_pushLiteral _) fun _ => ih _

theorem blind_backslash (s : Text) : Blind (backslash s) := by
  refine blind_ite (blind_bind (blind_pushNew _) fun _ => blind_pure _) ?_
  refine blind_ite (blind_throw _) ?_
  refine blind_ite (blind_get fun st w => ?_) (blind_get fun st w => ?_)
  · cases Text.find? "\\E" (s.drop 2) with
    | none => exact (blind_bind (blind_quotedPart st.bound _) fun _ => blind_pure _).whole st w
    | some n => exact (blind_bind (blind_quotedPart st.bound _) fun _ => blind_pure _).whole st w
  · refine (blind_bind (blind_lift _) fun r => ?_ : Blind _).whole st w
    split
    · exact blind_bind (blind_pushNew _) fun _ => blind_pure _
    · split
      · exact blind_bind (blind_pushNew _) fun _ => blind_pure _
      · refine blind_bind blind_takeRecord fun _ => blind_bind (blind_giveBack _) fun _ => ?_
        refine blind_bind (blind_lift _) fun r => ?_
        exact blind_bind (blind_pushLiteral _) fun _ => blind_pure _

theorem blind_step (lastRepeat s : Text) : Blind (step lastRepeat s) := by
  unfold step
  dsimp only
  refine blind_ite (blind_ite ?_ ?_) ?_
  · exact blind_bind (blind_specialGroup s) fun _ => blind_pure _
  · exact blind_bind (blind_openGroup true) fun _ => blind_pure _
  refine blind_ite (blind_bind blind_closeGroup fun _ => blind_pure _) ?_
  refine blind_ite (blind_bind blind_endAlternative fun _ => blind_pure _) ?_
  refine blind_ite (blind_bind (blind_pushNew _) fun _ => blind_pure _) ?_
  refine blind_ite (blind_get fun st w => ?_) ?_
  · exact (blind_bind (blind_pushNew _) fun _ => blind_pure _).whole st w
  refine blind_ite (blind_get fun st w => ?_) ?_
  · refine (blind_bind (blind_lift _) fun r => ?_ : Blind _).whole st w
    exact blind_bind (blind_pushNew _) fun _ => blind_pure _
  refine blind_ite (blind_bind (blind_repeatTop _ _ _ _) fun _ => blind_pure _) ?_
  refine blind_ite (blind_bind (blind_repeatTop _ _ _ _) fun _ => blind_pure _) ?_
  refine blind_ite (blind_bind (blind_repeatTop _ _ _ _) fun _ => blind_pure _) ?_
  refine blind_ite ?_ (blind_ite ?_ ?_)
  · split
    · exact blind_bind (blind_pushLiteral _) fun _ => blind_pure _
    · refine blind_bind (blind_ite (blind_lift _) (blind_repeatTop _ _ _ _)) fun _ => blind_pure _
  · exact blind_bind (blind_backslash s) fun _ => blind_pure _
  · refine blind_bind (blind_lift _) fun r => ?_
    exact blind_bind (blind_pushLiteral _) fun _ => blind_pure _

theorem blind_steps (fuel : Nat) (lastRepeat s : Text) : Blind (steps fuel lastRepeat s) := by
  induction fuel generalizing lastRepeat s with
  | zero => exact blind_pure _
  | succ fuel ih => exact blind_ite (blind_pure _) (blind_bind (blind_step _ _) fun _ => ih _ _)

/-- What is left to do once everything was read. -/
def finish : Reading Unit := do
  alternate
  match (← get).stack with
  | [_] => return ()
  | _ => refuseWhole .missingParen

theorem blind_finish : Blind finish := by
  refine blind_bind blind_alternate fun _ => blind_get fun s w => ?_
  obtain ⟨whole, bound, flags, stack, spare, made, weight, repeats, keepsSizes⟩ := s
  match stack with
  | [_] | [] | _ :: _ :: _ => rfl

/-! ## Flags in front -/

/-- The flags with one of them set, by its letter. -/
def Flags.set (flags : Flags) (letter : UInt8) : Flags := (flags.assign? letter.toNat true).getD flags

theorem mem_matchingFlags {b : UInt8} (h : b ∈ matchingFlags) :
    b = Text.byte 'i' ∨ b = Text.byte 'm' ∨ b = Text.byte 's' := by
  have hmatching : matchingFlags = [Text.byte 'i', Text.byte 'm', Text.byte 's'] := by decide
  rw [hmatching] at h
  simpa using h

theorem Flags.set_comm (flags : Flags) {a b : UInt8} (ha : a ∈ matchingFlags)
    (hb : b ∈ matchingFlags) : (flags.set a).set b = (flags.set b).set a := by
  rcases mem_matchingFlags ha with rfl | rfl | rfl <;>
    rcases mem_matchingFlags hb with rfl | rfl | rfl <;> rfl

theorem groupFlags_letters (s p : Text) {f : Text} (hf : ∀ b ∈ f, b ∈ matchingFlags) {fuel : Nat}
    (hfuel : f.length < fuel) (flags : Flags) (sawFlag : Bool) :
    groupFlags s fuel flags false sawFlag (f ++ Text.byte ')' :: p) =
      .ok (f.foldl Flags.set flags, false, p) := by
  induction f generalizing fuel flags sawFlag with
  | nil =>
    obtain ⟨fuel, rfl⟩ := Nat.exists_eq_add_of_lt hfuel
    rw [groupFlags]
    rfl
  | cons b f ih =>
    obtain ⟨hb, hf⟩ := List.forall_mem_cons.mp hf
    obtain ⟨fuel, rfl⟩ : ∃ n, fuel = n + 1 := ⟨fuel - 1, by simp at hfuel; omega⟩
    have hfuel' : f.length < fuel := by simp at hfuel; omega
    have hrest := ih hf hfuel' (flags.set b) true
    rw [List.foldl_cons, ← hrest, groupFlags]
    rcases mem_matchingFlags hb with rfl | rfl | rfl <;> rfl

theorem withFlags_cons (b : UInt8) (f p : Text) :
    withFlags (b :: f) p =
      Text.byte '(' :: Text.byte '?' :: b :: (f ++ Text.byte ')' :: p) := by
  have hopen : Text.ofString "(?" = [Text.byte '(', Text.byte '?'] := by decide
  have hclose : Text.ofString ")" = [Text.byte ')'] := by decide
  rw [withFlags, if_neg (by simp), hopen, hclose]
  simp

/-- Flags in front of a pattern are read in one step. -/
theorem step_withFlags (p : Text) {f : Text} (hf : ∀ b ∈ f, b ∈ matchingFlags) (hne : f ≠ [])
    (s : State) (hbound : f.length < s.bound) :
    step [] (withFlags f p) s = .ok ((p, []), { s with flags := f.foldl Flags.set s.flags }) := by
  cases f with
  | nil => exact absurd rfl hne
  | cons b f =>
    have hread := groupFlags_letters (withFlags (b :: f) p) p hf hbound s.flags false
    rw [withFlags_cons] at hread ⊢
    have hspecial : ∀ t : Text, t[2]? ≠ some (Text.byte 'P') → t[2]? ≠ some (Text.byte '<') →
        groupFlags t s.bound s.flags false false (t.drop 2) =
          .ok ((b :: f).foldl Flags.set s.flags, false, p) →
        specialGroup t s = .ok (p, { s with flags := (b :: f).foldl Flags.set s.flags }) := by
      intro t hlong hshort hgroup
      have hplain : ¬ ((t[2]? = some (Text.byte 'P') ∧ t[3]? = some (Text.byte '<') ∧ t[4]?.isSome) ∨
          (t[2]? = some (Text.byte '<') ∧ t[3]?.isSome)) := by
        rintro (h | h)
        · exact hlong h.1
        · exact hshort h.1
      have hlift : (liftM (groupFlags t s.bound s.flags false false (t.drop 2)) :
          Reading (Flags × Bool × Text)) s =
          .ok (((b :: f).foldl Flags.set s.flags, false, p), s) := by
        rw [hgroup]
        rfl
      unfold specialGroup
      dsimp only
      rw [if_neg hplain]
      have hget : (get : Reading State) s = .ok (s, s) := rfl
      exact (bind_of_ok hget).trans ((bind_of_ok hget).trans ((bind_of_ok hlift).trans rfl))
    rcases mem_matchingFlags (hf b (List.mem_cons_self ..)) with rfl | rfl | rfl
    all_goals exact (bind_of_ok (hspecial _ (by simp) (by simp) hread)).trans rfl

/-- What is read after the flags, which were all set. -/
theorem read_withFlags (p : Text) {f : Text} (hf : ∀ b ∈ f, b ∈ matchingFlags) (hne : f ≠ []) :
    (steps ((withFlags f p).length + 1) [] (withFlags f p) >>= fun _ => finish)
        { whole := withFlags f p, bound := (withFlags f p).length + 1 } =
      (steps (withFlags f p).length [] p >>= fun _ => finish)
        { whole := withFlags f p, bound := (withFlags f p).length + 1
          flags := f.foldl Flags.set {} } := by
  have hlen : f.length < (withFlags f p).length + 1 := by
    rw [withFlags, if_neg (by simpa using hne)]
    simp
    omega
  have hstep := step_withFlags p hf hne
    { whole := withFlags f p, bound := (withFlags f p).length + 1 } hlen
  have hfull : (withFlags f p).isEmpty = false := by
    cases f with
    | nil => exact absurd rfl hne
    | cons b f =>
      rw [withFlags_cons]
      rfl
  rw [steps, hfull, if_neg Bool.false_ne_true, bind_assoc]
  exact bind_of_ok hstep

/-- Whether a pattern with flags is one does not depend on the order of the flags. -/
theorem check_withFlags {f g : Text} (hfg : f.Perm g) (hf : ∀ b ∈ f, b ∈ matchingFlags) (p : Text) :
    (check (withFlags f p)).isOk = (check (withFlags g p)).isOk := by
  have hcheck : ∀ t : Text, (check t).isOk =
      (verdict ((steps (t.length + 1) [] t >>= fun _ => finish)
        { whole := t, bound := t.length + 1 })).isSome := by
    intro t
    show ((((steps (t.length + 1) [] t >>= fun _ => finish) : Reading Unit)
      { whole := t, bound := t.length + 1 }).map fun _ => ()).isOk = _
    cases ((steps (t.length + 1) [] t >>= fun _ => finish) : Reading Unit)
      { whole := t, bound := t.length + 1 } <;> rfl
  by_cases hne : f = []
  · subst hne
    rw [hfg.nil_eq]
  · have hg : ∀ b ∈ g, b ∈ matchingFlags := fun b hb => hf b (hfg.mem_iff.mpr hb)
    have hne' : g ≠ [] := fun h => hne (h ▸ hfg : f.Perm []).eq_nil
    have hlen : (withFlags f p).length = (withFlags g p).length := by
      rw [withFlags, withFlags, if_neg (by simpa using hne), if_neg (by simpa using hne')]
      simp [hfg.length_eq]
    have hflags : f.foldl Flags.set {} = g.foldl Flags.set {} :=
      hfg.foldl_eq' (fun a ha b hb flags => Flags.set_comm flags (hf a ha) (hf b hb)) _
    rw [hcheck, hcheck, read_withFlags p hf hne, read_withFlags p hg hne', hlen, hflags]
    have hblind : Blind (steps (withFlags g p).length [] p >>= fun _ => finish) :=
      blind_bind (blind_steps _ _ _) fun _ => blind_finish
    exact congrArg Option.isSome (hblind _ _ rfl)

/-! ## Flags of a literal -/

/-- A text whose runes are all ASCII characters is made of their bytes. -/
theorem mem_of_small_runes {t : Text} (h : ∀ r ∈ t.runes, r.code < 128) (b : UInt8) :
    b ∈ t ↔ ∃ r ∈ t.runes, r.code = b.toNat := by
  induction t with
  | nil =>
    rw [Text.runes]
    simp [Text.next?]
  | cons a t ih =>
    have hruns : Text.runes (a :: t) = Text.decode a t :: Text.runes ((a :: t).drop (Text.decode a t).width) := by
      rw [Text.runes]
      rfl
    rw [hruns, List.forall_mem_cons] at h
    have hdecode := Text.decode_of_small h.1
    have hdrop : (a :: t).drop (Text.decode a t).width = t := by
      rw [hdecode]
      rfl
    rw [hdrop] at h hruns
    rw [hruns, List.mem_cons, List.exists_mem_cons_iff, ih h.2, hdecode]
    exact or_congr ⟨fun hb => by rw [hb], fun hb => UInt8.toNat_inj.mp hb.symm⟩ Iff.rfl

theorem regexInline_eq_ok {acc out : Text} {rs : List Rune}
    (h : OfTree.regexInline acc rs = .ok out) (hacc : acc.Nodup) :
    (∀ r ∈ rs, r.code < 128) ∧ out.Nodup ∧
      ∀ b, b ∈ out ↔ b ∈ acc ∨ b ∈ matchingFlags ∧ ∃ r ∈ rs, r.code = b.toNat := by
  induction rs generalizing acc with
  | nil =>
    cases h
    exact ⟨List.forall_mem_nil _, hacc, fun b => by simp⟩
  | cons r rs ih =>
    rw [OfTree.regexInline] at h
    split at h
    · cases h
    rename_i hletter
    have hsmall : r.code < 128 := by
      by_contra hbig
      exact hletter (.inl (by omega))
    have hcode : ∀ b : UInt8, r.code = b.toNat ↔ b = r.code.toUInt8 := by
      intro b
      have hback : r.code.toUInt8.toNat = r.code := by
        show r.code % 256 = r.code
        omega
      rw [← UInt8.toNat_inj, hback]
      exact eq_comm
    dsimp only at h
    split at h
    · rename_i hnew
      obtain ⟨hmatching, hnotin⟩ := hnew
      rw [List.contains_iff_mem] at hmatching hnotin
      obtain ⟨hsmalls, hnodup, hmem⟩ := ih h
        (List.nodup_append.mpr ⟨hacc, List.nodup_singleton _, fun a ha b hb => by
          rw [List.mem_singleton] at hb
          subst hb
          exact fun he => hnotin (he ▸ ha)⟩)
      refine ⟨List.forall_mem_cons.mpr ⟨hsmall, hsmalls⟩, hnodup, fun b => ?_⟩
      rw [hmem, List.mem_append, List.mem_singleton, List.exists_mem_cons_iff, hcode]
      constructor
      · rintro ((hb | rfl) | ⟨hb, hr⟩)
        · exact .inl hb
        · exact .inr ⟨hmatching, .inl rfl⟩
        · exact .inr ⟨hb, .inr hr⟩
      · rintro (hb | ⟨hb, rfl | hr⟩)
        · exact .inl (.inl hb)
        · exact .inl (.inr rfl)
        · exact .inr ⟨hb, hr⟩
    · rename_i hold
      obtain ⟨hsmalls, hnodup, hmem⟩ := ih h hacc
      refine ⟨List.forall_mem_cons.mpr ⟨hsmall, hsmalls⟩, hnodup, fun b => ?_⟩
      rw [hmem, List.exists_mem_cons_iff, hcode]
      constructor
      · rintro (hb | ⟨hb, hr⟩)
        · exact .inl hb
        · exact .inr ⟨hb, .inr hr⟩
      · rintro (hb | ⟨hb, rfl | hr⟩)
        · exact .inl hb
        · left
          by_contra hnotin
          exact hold ⟨List.contains_iff_mem.mpr hb, fun hc => hnotin (List.contains_iff_mem.mp hc)⟩
        · exact .inr ⟨hb, hr⟩

/-- The flags that a literal is checked with are those that it is run with, in some order. -/
theorem perm_inlineFlags {flags inline : Text}
    (h : OfTree.regexInline [] (Text.runes flags) = .ok inline) :
    inline.Perm (inlineFlags flags) := by
  obtain ⟨hsmall, hnodup, hmem⟩ := regexInline_eq_ok h List.nodup_nil
  have hfixed : (inlineFlags flags).Nodup := List.Nodup.filter _ (by decide)
  refine (List.perm_ext_iff_of_nodup hnodup hfixed).mpr fun b => ?_
  rw [hmem, inlineFlags, List.mem_filter, List.contains_iff_mem, mem_of_small_runes hsmall]
  simp

end Bareword.Pattern
