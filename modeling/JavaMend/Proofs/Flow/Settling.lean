import JavaMend.Proofs.Flow.Comparison
import JavaMend.Proofs.Flow.Conditions

/-!
# Loops come to rest

What comes back to the head of a loop is joined into the state there, so the state only
grows. It grows in two ways, a local becomes tainted or a tainted one becomes live, and
only the locals that the body declares or assigns are ever touched: after twice as many
rounds as there are such locals the next one changes nothing (`FlowRun.Settles`). Two
runs that differ only in how often they go round a loop, and both go round often enough,
walk every loop alike (`FlowRun.resting`), whatever stands in it, and so find the same
in the same order (`FlowQuery.findSinks_settled`). The states that a walk comes to a loop
with are known (`FlowRun.Arrives`): all are over these locals.

The measure is `FlowState.size`. It grows at every join that changes a state only if the
sanitized locals are among the tainted ones, which `FlowState.Within` says and the walks
keep.
-/

namespace JavaMend

namespace FlowRun

variable {run : FlowRun} {names : List String}

/-- A round of a loop: from the state at the head and what has left the loop so far to
what has left it by then and what comes back to the head. -/
abbrev Round := FlowState → Option FlowState → FlowM (Option FlowState × Option FlowState)

/-- A loop comes to rest within so many rounds: what comes back to the head in the last
of them changes nothing there. -/
def Settles (round : Round) : Nat → FlowState → Option FlowState → Trace → Prop
  | 0, _, _, _ => False
  | n + 1, head, exit, t =>
    (head.joinBack (round head exit t).1.2 == head) = true ∨
      Settles round n (head.joinBack (round head exit t).1.2) (round head exit t).1.1
        (round head exit t).2

/-- The rounds in which a loop at a place of a body is walked. -/
inductive IsRound (run : FlowRun) (above : List Node) (depth : Nat) : Stmt → Round → Prop
  | whileLoop {id : NodeId} {condition : Expr} {body : Stmt} :
      IsRound run above depth ⟨id, .whileLoop condition body⟩
        (run.loopRound (.stmt ⟨id, .whileLoop condition body⟩ :: above) (some condition) []
          fun s => run.exec (.stmt ⟨id, .whileLoop condition body⟩ :: above) (depth + 1) body s)
  | forLoop {id : NodeId} {init : List Stmt} {condition : Option Expr} {update : List Expr}
      {body : Stmt} :
      IsRound run above depth ⟨id, .forLoop init condition update body⟩
        (run.loopRound (.stmt ⟨id, .forLoop init condition update body⟩ :: above) condition update
          fun s => run.exec (.stmt ⟨id, .forLoop init condition update body⟩ :: above)
            (depth + 1) body s)
  | forEach {id : NodeId} {typeName : String} {item : Variable} {iterable : Expr} {body : Stmt}
      (tainted : Bool) :
      IsRound run above depth ⟨id, .forEach typeName item iterable body⟩
        (itemRound item.name tainted
          fun s => run.exec (.stmt ⟨id, .forEach typeName item iterable body⟩ :: above)
            (depth + 1) body s)

/-! ## The two runs -/

/-- The same run, with another limit to how often it goes round a loop. -/
def going (run : FlowRun) (rounds : Nat) : FlowRun :=
  { run with limits := { run.limits with maxLoopIterations := rounds } }

/-- The walks find the same, and what they answer is related. -/
def Alike {α : Type} (rel : α → α → Prop) (walk walk' : FlowM α) : Prop :=
  ∀ t, (walk t).2 = (walk' t).2 ∧ rel (walk t).1 (walk' t).1

theorem Alike.refl {α : Type} {rel : α → α → Prop} {walk : FlowM α}
    (self : ∀ t, rel (walk t).1 (walk t).1) : Alike rel walk walk :=
  fun t => ⟨rfl, self t⟩

theorem Alike.seq {α β : Type} {rel : α → α → Prop} {rel' : β → β → Prop} {walk walk' : FlowM α}
    {next next' : α → FlowM β} (first : Alike rel walk walk')
    (more : ∀ a b, rel a b → Alike rel' (next a) (next' b)) :
    Alike rel' (walk >>= next) (walk' >>= next') := by
  intro t
  obtain ⟨found, related⟩ := first t
  show (next (walk t).1 (walk t).2).2 = (next' (walk' t).1 (walk' t).2).2 ∧
    rel' (next (walk t).1 (walk t).2).1 (next' (walk' t).1 (walk' t).2).1
  rw [← found]
  exact more _ _ related _

/-- Two runs that differ in how often they go round a loop, over states whose locals are
among `names`. -/
def resting (run : FlowRun) (names : List String) (rounds : Nat) :
    Comparison run (run.going rounds) where
  state s s' := s = s' ∧ s.Within names
  value := Eq
  walks := Alike
  offers _ := True
  writes x := x ∈ names

/-- A loop that starts at this state may be walked `n` times or `n'` times: it makes no
difference, as it comes to rest before. -/
def Patient (names : List String) (n n' : Nat) (head : FlowState) : Prop :=
  n = n' ∨ 2 * names.length < n + head.size names ∧ 2 * names.length < n' + head.size names

theorem Patient.next {n n' : Nat} {head back : FlowState}
    (enough : Patient names (n + 1) (n' + 1) head) (within : head.Within names)
    (within' : back.Within names) (moves : (head.join back == head) = false) :
    Patient names n n' (head.join back) := by
  have larger := FlowState.size_lt_join within within' moves
  exact enough.imp (by omega) (by omega)

variable {rounds : Nat} {turn turn' : FlowState → FlowM (Option FlowState × Option FlowState)}

/-- States that may be missing are related if they are the same, over known locals. -/
theorem rel_resting_iff {a b : Option FlowState} :
    Option.Rel (run.resting names rounds).state a b ↔ a = b ∧ ∀ s ∈ a, s.Within names := by
  constructor
  · intro related
    cases related with
    | none => exact ⟨rfl, fun _ mem => (Option.not_mem_none _ mem).elim⟩
    | some state =>
      obtain ⟨rfl, within⟩ := state
      exact ⟨rfl, fun _ mem => Option.some.inj mem ▸ within⟩
  · rintro ⟨rfl, within⟩
    cases a with
    | none => exact .none
    | some s => exact .some ⟨rfl, within s rfl⟩

theorem within_merge {a b : Option FlowState} (first : ∀ s ∈ a, s.Within names)
    (second : ∀ s ∈ b, s.Within names) : ∀ s ∈ FlowState.merge a b, s.Within names := by
  cases a with
  | none => exact second
  | some a =>
    cases b with
    | none => exact first
    | some b =>
      intro s mem
      obtain rfl : a.join b = s := Option.some.inj mem
      exact (first a rfl).join (second b rfl)

/-- Loops with the same turns are walked alike, if both are walked often enough. The
induction is on how often the first may still be walked. -/
theorem iterate_patient
    (turns : ∀ s, s.Within names → Alike (run.resting names rounds).Turn (turn s) (turn' s))
    (n n' : Nat) {head : FlowState} {exit : Option FlowState} (within : head.Within names)
    (exits : ∀ s ∈ exit, s.Within names) (enough : Patient names n n' head) :
    Alike (Option.Rel (run.resting names rounds).state)
      (run.iterate (gather turn) n head exit)
      ((run.going rounds).iterate (gather turn') n' head exit) := by
  induction n generalizing n' head exit with
  | zero =>
    have bounded : head.size names ≤ 2 * names.length := FlowState.size_le
    obtain rfl : 0 = n' := enough.elim id (by omega)
    exact .refl fun _ => rel_resting_iff.mpr ⟨rfl, exits⟩
  | succ n ih =>
    have bounded : head.size names ≤ 2 * names.length := FlowState.size_le
    obtain ⟨n', rfl⟩ : ∃ m, n' = m + 1 := ⟨n' - 1, by rcases enough with same | more <;> omega⟩
    have round : Alike (fun r r' => r = r' ∧ (∀ s ∈ r.1, s.Within names) ∧
        ∀ s ∈ r.2, s.Within names) (gather turn head exit) (gather turn' head exit) := by
      refine (turns head within).seq fun r r' related => ?_
      obtain ⟨left_, out⟩ := rel_resting_iff.mp related.exit
      obtain ⟨back, comes⟩ := rel_resting_iff.mp related.back
      obtain rfl : r = r' := Prod.ext left_ back
      exact .refl fun _ => ⟨rfl, within_merge exits out, comes⟩
    rw [iterate_succ, iterate_succ]
    refine round.seq fun r r' related => ?_
    obtain ⟨rfl, out, comes⟩ := related
    have asked : Alike Eq run.isDone (run.going rounds).isDone := fun _ => ⟨rfl, rfl⟩
    refine asked.seq fun done done' same => ?_
    subst same
    split
    next => exact .refl fun _ => rel_resting_iff.mpr ⟨rfl, out⟩
    next on =>
      rw [Bool.or_eq_true, not_or] at on
      obtain ⟨moves, -⟩ := on
      cases back : r.2 with
      | none =>
        rw [back] at moves
        exact (moves (FlowState.beq_self head)).elim
      | some b =>
        rw [back] at moves
        have moves : (head.join b == head) = false := Bool.eq_false_iff.mpr moves
        have within_b := comes b back
        exact ih n' (within.join within_b) out (enough.next within within_b moves)

/-- The turns of a loop bring it to rest before the state at its head can grow no
further. -/
theorem settles_of_turns
    (turns : ∀ s, s.Within names → ∀ t, ∀ b ∈ (turn s t).1.2, b.Within names) (n : Nat)
    {head : FlowState} (within : head.Within names)
    (enough : 2 * names.length < n + head.size names) (exit : Option FlowState) (t : Trace) :
    Settles (gather turn) n head exit t := by
  induction n generalizing head exit t with
  | zero =>
    have bounded : head.size names ≤ 2 * names.length := FlowState.size_le
    omega
  | succ n ih =>
    by_cases rests : (head.joinBack (gather turn head exit t).1.2 == head) = true
    · exact .inl rests
    · refine .inr ?_
      have comes : ∀ b ∈ (gather turn head exit t).1.2, b.Within names := turns head within t
      cases back : (gather turn head exit t).1.2 with
      | none =>
        rw [back] at rests
        exact (rests (FlowState.beq_self head)).elim
      | some b =>
        rw [back] at rests comes
        have larger := FlowState.size_lt_join within (comes b rfl) (Bool.eq_false_iff.mpr rests)
        exact ih (within.join (comes b rfl)) (by show _ < n + (head.join b).size names; omega) _ _

/-- The two runs walk alike, if they go round a loop equally often or both often
enough. -/
theorem resting_sound
    (enough : ∀ head : FlowState, Patient names run.limits.maxLoopIterations rounds head) :
    (run.resting names rounds).Sound where
  source := rfl
  maxDepth := rfl
  answer related _ := ⟨rfl, related⟩
  seq := .seq
  isDone := fun _ => ⟨rfl, rfl⟩
  announce := by
    rintro here e a _ _ rfl
    exact fun _ => ⟨rfl, trivial⟩
  assumeAtom := by
    rintro here e branch s _ ⟨rfl, within⟩
    intro t
    refine ⟨rfl, rfl, ?_⟩
    rw [assumeAtom_state]
    exact within.foldl_sanitize _
  iterate := by
    rintro turn turn' head _ exit exit' turns ⟨rfl, within⟩ exits
    obtain ⟨rfl, known⟩ := rel_resting_iff.mp exits
    exact iterate_patient (fun s within => turns s s ⟨rfl, within⟩) _ _ within known (enough head)
  live x := by
    rintro ⟨rfl, -⟩
    rfl
  assign := by
    rintro s _ x a _ known ⟨rfl, within⟩ rfl
    exact ⟨rfl, within.assign known a⟩
  join := by
    rintro s _ t _ ⟨rfl, within⟩ ⟨rfl, within'⟩
    exact ⟨rfl, within.join within'⟩
  refl _ := rfl
  or := by
    rintro a _ a' _ rfl rfl
    rfl
  mask := by
    rintro a _ rfl
    rfl

/-! ## Loops of a body -/

/-- A run compared with itself. -/
abbrev within (run : FlowRun) (names : List String) : Comparison run run :=
  run.resting names run.limits.maxLoopIterations

theorem within_sound : (run.within names).Sound :=
  resting_sound fun _ => .inl rfl

theorem within_of_rel {a b : Option FlowState} (related : Option.Rel (run.within names).state a b) :
    ∀ s ∈ a, s.Within names :=
  (rel_resting_iff.mp related).2

variable {above : List Node} {depth : Nat} {stmt : Stmt} {round : Round}

/-- A round of a loop adds what leaves the loop in a turn to what has left it, and a turn
keeps to the names that the body writes. -/
theorem IsRound.exists_turn (admits : (run.within names).Admits above (.stmt stmt))
    (isRound : run.IsRound above depth stmt round) : ∃ turn, round = gather turn ∧
      ∀ s, s.Within names → ∀ t, ∀ b ∈ (turn s t).1.2, b.Within names := by
  have parts {body : Stmt} (open_ : (Node.stmt stmt).isNested = false)
      (mem : Node.stmt body ∈ stmt.children) :
      (run.within names).Walked (.stmt stmt :: above) (depth + 1) (.stmt body) :=
    within_sound.walked _ _ _ (admits.child open_ mem)
  have keeps {turn : FlowState → FlowM (Option FlowState × Option FlowState)}
      (turns : ∀ s, s.Within names → Alike (run.within names).Turn (turn s) (turn s)) :
      ∀ s, s.Within names → ∀ t, ∀ b ∈ (turn s t).1.2, b.Within names :=
    fun s known t => within_of_rel (turns s known t).2.back
  cases isRound with
  | @whileLoop id condition body =>
    refine ⟨_, loopRound_eq_gather .., keeps fun s known => ?_⟩
    refine within_sound.loopTurn (fun e he _ _ => ?_) (fun e he => (List.not_mem_nil he).elim)
      (parts rfl (List.mem_cons_of_mem _ List.mem_cons_self)) ⟨rfl, known⟩
    cases he
    exact within_sound.eval _ _ (admits.child rfl List.mem_cons_self)
  | @forLoop id init condition update body =>
    refine ⟨_, loopRound_eq_gather .., keeps fun s known => ?_⟩
    refine within_sound.loopTurn (fun e he _ _ => ?_) (fun e he _ _ => ?_)
      (parts rfl (List.mem_append_right _ List.mem_cons_self)) ⟨rfl, known⟩
    · refine within_sound.eval _ _ (admits.child rfl
        (List.mem_append_left _ (List.mem_append_left _ (List.mem_append_right _ ?_))))
      exact List.mem_map_of_mem (Option.mem_toList.mpr he)
    · exact within_sound.eval _ _ (admits.child rfl
        (List.mem_append_left _ (List.mem_append_right _ (List.mem_map_of_mem he))))
  | @forEach id typeName item iterable body tainted =>
    refine ⟨_, itemRound_eq_gather .., keeps fun s known => ?_⟩
    have writes : item.name ∈ names :=
      (admits.child rfl (m := .var item) List.mem_cons_self).written rfl
    exact within_sound.itemTurn writes rfl
      (parts rfl (List.mem_cons_of_mem _ (List.mem_cons_of_mem _ List.mem_cons_self)))
      ⟨rfl, known⟩

/-- Every loop of a body comes to rest, from every state over the names that the body
writes: one round more than such a state can grow is enough. -/
theorem settles (admits : (run.within names).Admits above (.stmt stmt))
    (isRound : run.IsRound above depth stmt round) {head : FlowState} (within : head.Within names)
    (exit : Option FlowState) (t : Trace) :
    Settles round (2 * names.length + 1) head exit t := by
  obtain ⟨turn, rfl, turns⟩ := isRound.exists_turn admits
  exact settles_of_turns turns _ within (by omega) exit t

/-! ## What a walk comes to -/

/-- Where a walk stands: in front of statements that follow each other, or at the head of a
loop. -/
inductive Stop where
  | stmts (above : List Node) (depth : Nat) (stmts : List Stmt)
  | head (above : List Node) (depth : Nat) (loop : Stmt)

namespace Stop

/-- In front of the statements of a block. -/
def inBlock (here : List Node) (depth : Nat) (block : Block) : Stop :=
  .stmts (.block block :: here) depth block.stmts

/-- Whatever follows is admitted. -/
def Admits {left right : FlowRun} (c : Comparison left right) : Stop → Prop
  | .stmts above _ following => ∀ stmt ∈ following, c.Admits above (.stmt stmt)
  | .head above _ loop => c.Admits above (.stmt loop)

end Stop

/-- From a statement a walk comes to the parts of it, and to its head if it is a loop. -/
def Enters (run : FlowRun) (above : List Node) (depth : Nat) (stmt : Stmt) (s : FlowState)
    (stop : Stop) (s' : FlowState) : Prop :=
  let here := .stmt stmt :: above
  match stmt.form with
  | .ifElse condition onTrue onFalse => ∃ (branch : Bool) (t t' : Trace),
      ∃ part ∈ if branch then some onTrue else onFalse, stop = .stmts here (depth + 1) [part] ∧
        s' = (run.assume here branch condition (run.eval here condition s t).1.2 t').1
  | .whileLoop .. => stop = .head above depth stmt ∧ s' = s
  | .forLoop init .. =>
      stop = .stmts here (depth + 1) init ∧ s' = s ∨
      stop = .head above depth stmt ∧
        ∃ t, s' ∈ (run.execAll here (depth + 1) init s t).1.normal
  | .forEach _ _ iterable _ =>
      stop = .head above depth stmt ∧ ∃ t, s' = (run.eval here iterable s t).1.2
  | .tryCatch resources body catches finish => ∃ t t' t'' : Trace,
      let entered := (run.declareAll here resources s t).1
      let tried := (run.execBlock here (depth + 1) body entered t').1
      let handlerIn := entered.joinBack tried.normal
      let caught := (run.execCatches here (depth + 1) catches handlerIn tried t'').1
      stop = .inBlock here (depth + 1) body ∧ s' = entered ∨
      (∃ clause ∈ catches, stop = .inBlock here (depth + 1) clause.body ∧
        s' = handlerIn.clear clause.parameter.name) ∨
      ∃ last ∈ finish, stop = .inBlock here (depth + 1) last ∧
        s' = caught.normal.getD handlerIn
  | .block body => stop = .inBlock here (depth + 1) body ∧ s' = s
  | _ => False

/-- From the head of a loop a walk comes to its body, and after a round to the head again. -/
def Circles (run : FlowRun) (above : List Node) (depth : Nat) (loop : Stmt) (head : FlowState)
    (stop : Stop) (s' : FlowState) : Prop :=
  let here := .stmt loop :: above
  (stop = .head above depth loop ∧ ∃ round exit t, run.IsRound above depth loop round ∧
    s' = head.joinBack (round head exit t).1.2) ∨
  match loop.form with
  | .whileLoop condition body => stop = .stmts here (depth + 1) [body] ∧
      ∃ t, s' = (run.enterLoop here (some condition) head none t).1.1
  | .forLoop _ condition _ body => stop = .stmts here (depth + 1) [body] ∧
      ∃ t, s' = (run.enterLoop here condition head none t).1.1
  | .forEach _ item _ body => stop = .stmts here (depth + 1) [body] ∧
      ∃ tainted, s' = head.assign item.name tainted
  | _ => False

/-- The states in which a walk of statements comes to the stops on its way, whatever it has
found until then. -/
inductive Arrives (run : FlowRun) (top : List Node) (body : List Stmt) : Stop → FlowState → Prop
  | start : Arrives run top body (.stmts top 0 body) .empty
  | enters {above : List Node} {depth : Nat} {stmt : Stmt} {rest : List Stmt} {s s' : FlowState}
      {stop : Stop} (before : Arrives run top body (.stmts above depth (stmt :: rest)) s)
      (enters : run.Enters above depth stmt s stop s') : Arrives run top body stop s'
  | falls {above : List Node} {depth : Nat} {stmt : Stmt} {rest : List Stmt} {s s' : FlowState}
      (t : Trace) (before : Arrives run top body (.stmts above depth (stmt :: rest)) s)
      (falls : s' ∈ (run.exec above depth stmt s t).1.normal) :
      Arrives run top body (.stmts above depth rest) s'
  | circles {above : List Node} {depth : Nat} {loop : Stmt} {head s' : FlowState} {stop : Stop}
      (before : Arrives run top body (.head above depth loop) head)
      (circles : run.Circles above depth loop head stop s') : Arrives run top body stop s'

section

variable {s s' : FlowState} {stop : Stop}

theorem Admits.eval_within {e : Expr} (admits : (run.within names).Admits above (.expr e))
    (known : s.Within names) (t : Trace) : (run.eval above e s t).1.2.Within names :=
  (within_sound.eval e above admits ⟨rfl, known⟩ t).2.state.2

theorem assume_within {branch : Bool} {e : Expr} (known : s.Within names) (t : Trace) :
    (run.assume above branch e s t).1.Within names :=
  (within_sound.assume ⟨rfl, known⟩ t).2.2

theorem enterLoop_within {condition : Option Expr} {exit : Option FlowState}
    (admits : ∀ e ∈ condition, (run.within names).Admits above (.expr e))
    (known : s.Within names) (t : Trace) :
    (run.enterLoop above condition s exit t).1.1.Within names := by
  cases condition with
  | none => exact known
  | some e => exact assume_within (Admits.eval_within (admits e rfl) known t) _

theorem within_getD {a : Option FlowState} {b : FlowState} (there : ∀ s ∈ a, s.Within names)
    (missing : b.Within names) : (a.getD b).Within names := by
  cases a with
  | none => exact missing
  | some s => exact there s rfl

/-- A part of an admitted statement is admitted. -/
theorem admits_part {part : Stmt} (admits : (run.within names).Admits above (.stmt stmt))
    (open_ : (Node.stmt stmt).isNested = false) (mem : .stmt part ∈ (Node.stmt stmt).children) :
    Stop.Admits (run.within names) (.stmts (.stmt stmt :: above) depth [part]) :=
  List.forall_mem_singleton.mpr (admits.child open_ mem)

theorem admits_block {block : Block} (admits : (run.within names).Admits above (.stmt stmt))
    (open_ : (Node.stmt stmt).isNested = false) (mem : .block block ∈ (Node.stmt stmt).children) :
    Stop.Admits (run.within names) (.inBlock (.stmt stmt :: above) depth block) :=
  fun _ hs => (admits.child open_ mem).child rfl (List.mem_map_of_mem hs)

theorem Enters.within (admits : (run.within names).Admits above (.stmt stmt))
    (known : s.Within names) (enters : run.Enters above depth stmt s stop s') :
    stop.Admits (run.within names) ∧ s'.Within names := by
  obtain ⟨id, form⟩ := stmt
  cases form with
  | ifElse condition onTrue onFalse =>
    obtain ⟨branch, t, t', part, chosen, rfl, rfl⟩ := enters
    have asked := Admits.eval_within (admits.child rfl List.mem_cons_self) known t
    refine ⟨admits_part admits rfl ?_, assume_within asked t'⟩
    cases branch with
    | true =>
      cases chosen
      exact List.mem_cons_of_mem _ List.mem_cons_self
    | false =>
      exact List.mem_cons_of_mem _ (List.mem_cons_of_mem _
        (List.mem_map_of_mem (Option.mem_toList.mpr chosen)))
  | whileLoop condition body =>
    obtain ⟨rfl, rfl⟩ := enters
    exact ⟨admits, known⟩
  | forLoop init condition update body =>
    have parts : ∀ stmt ∈ init, (run.within names).Admits _ (.stmt stmt) := fun stmt hs =>
      admits.child rfl (List.mem_append_left _ (List.mem_append_left _ (List.mem_append_left _
        (List.mem_map_of_mem hs))))
    rcases enters with ⟨rfl, rfl⟩ | ⟨rfl, t, falls⟩
    · exact ⟨parts, known⟩
    · have walked := within_sound.execAll (depth + 1) init
        (fun stmt hs => within_sound.walked _ _ _ (parts stmt hs)) ⟨rfl, known⟩ t
      exact ⟨admits, within_of_rel walked.2.normal _ falls⟩
  | forEach typeName item iterable body =>
    obtain ⟨rfl, t, rfl⟩ := enters
    exact ⟨admits, Admits.eval_within
      (admits.child rfl (List.mem_cons_of_mem _ List.mem_cons_self)) known t⟩
  | tryCatch resources body catches finish =>
    obtain ⟨t, t', t'', enters⟩ := enters
    obtain ⟨-, ofBody, ofClauses, ofFinish⟩ :=
      Node.mem_children_tryCatch id resources body catches finish
    have declared := within_sound.declareAll admits ⟨rfl, known⟩
    have entered := (declared t).2
    have tried :=
      (within_sound.walked _ _ (depth + 1) (admits.child rfl ofBody) _ _ entered t').2
    have handlerIn := within_sound.joinBack entered tried.normal
    have writes : ∀ clause ∈ catches, clause.parameter.name ∈ names := fun clause hc =>
      (admits.child rfl (ofClauses clause hc).1).written rfl
    have caught := within_sound.execCatches writes (fun clause hc =>
      within_sound.walked _ _ (depth + 1) (admits.child rfl (ofClauses clause hc).2)) handlerIn tried
    rcases enters with ⟨rfl, rfl⟩ | ⟨clause, hc, rfl, rfl⟩ | ⟨last, hl, rfl, rfl⟩
    · exact ⟨admits_block admits rfl ofBody, entered.2⟩
    · exact ⟨admits_block admits rfl (ofClauses clause hc).2,
        handlerIn.2.assign (writes clause hc) false⟩
    · exact ⟨admits_block admits rfl (ofFinish last hl),
        within_getD (within_of_rel (caught t'').2.normal) handlerIn.2⟩
  | block body =>
    obtain ⟨rfl, rfl⟩ := enters
    exact ⟨admits_block admits rfl List.mem_cons_self, known⟩
  | _ => cases enters

theorem Circles.within (admits : (run.within names).Admits above (.stmt stmt))
    (known : s.Within names) (circles : run.Circles above depth stmt s stop s') :
    stop.Admits (run.within names) ∧ s'.Within names := by
  rcases circles with ⟨rfl, round, exit, t, isRound, rfl⟩ | inside
  · refine ⟨admits, ?_⟩
    obtain ⟨turn, rfl, turns⟩ := isRound.exists_turn admits
    have comes : ∀ b ∈ (gather turn s exit t).1.2, b.Within names := turns s known t
    cases back : (gather turn s exit t).1.2 with
    | none => exact known
    | some b => exact known.join (comes b back)
  · obtain ⟨id, form⟩ := stmt
    cases form with
    | whileLoop condition body =>
      obtain ⟨rfl, t, rfl⟩ := inside
      refine ⟨admits_part admits rfl (List.mem_cons_of_mem _ List.mem_cons_self),
        enterLoop_within (fun e he => ?_) known t⟩
      cases he
      exact admits.child rfl List.mem_cons_self
    | forLoop init condition update body =>
      obtain ⟨rfl, t, rfl⟩ := inside
      refine ⟨admits_part admits rfl (List.mem_append_right _ List.mem_cons_self),
        enterLoop_within (fun e he => admits.child rfl (List.mem_append_left _
          (List.mem_append_left _ (List.mem_append_right _ ?_)))) known t⟩
      exact List.mem_map_of_mem (Option.mem_toList.mpr he)
    | forEach typeName item iterable body =>
      obtain ⟨rfl, tainted, rfl⟩ := inside
      have writes : item.name ∈ names :=
        (admits.child rfl (m := .var item) List.mem_cons_self).written rfl
      exact ⟨admits_part admits rfl (List.mem_cons_of_mem _ (List.mem_cons_of_mem _
        List.mem_cons_self)), known.assign writes tainted⟩
    | _ => cases inside

/-- Wherever a walk comes to, the locals of its state are known. -/
theorem Arrives.within {top : List Node} {body : List Stmt}
    (admits : ∀ stmt ∈ body, (run.within names).Admits top (.stmt stmt))
    (arrives : run.Arrives top body stop s) :
    stop.Admits (run.within names) ∧ s.Within names := by
  induction arrives with
  | start => exact ⟨admits, FlowState.within_empty⟩
  | enters _ enters ih => exact enters.within (ih.1 _ List.mem_cons_self) ih.2
  | @falls above depth stmt rest s s' t _ falls ih =>
    have walked := within_sound.walked _ _ depth (ih.1 _ List.mem_cons_self) _ _ ⟨rfl, ih.2⟩ t
    exact ⟨fun stmt hs => ih.1 stmt (List.mem_cons_of_mem _ hs),
      within_of_rel walked.2.normal _ falls⟩
  | circles _ circles ih => exact circles.within ih.1 ih.2

end

end FlowRun

/-! ## Bodies -/

theorem Node.own_subset {n m : Node} (mem : m ∈ n.own) : m.own ⊆ n.own := by
  induction n using Node.inductionOn with
  | step n ih =>
    rw [own_eq] at mem
    rcases List.mem_cons.mp mem with rfl | below
    · exact List.Subset.refl _
    · split at below
      · cases below
      next open_ =>
        obtain ⟨c, hc, below⟩ := List.mem_flatMap.mp below
        intro k hk
        exact mem_own_of_child (Bool.eq_false_iff.mpr open_) hc (ih c hc below hk)

theorem Block.mem_localNames {body : Block} {m : Node} {x : String}
    (mem : m ∈ (Node.block body).own) (writes : m.written? = some x) : x ∈ body.localNames :=
  List.mem_dedup.mpr (List.mem_filterMap.mpr ⟨m, mem, writes⟩)

/-- What the statements of a body write are locals of it. -/
theorem Block.admits_localNames {run : FlowRun} {body : Block} {rounds : Nat} {above : List Node} :
    ∀ stmt ∈ body.stmts, (run.resting body.localNames rounds).Admits above (.stmt stmt) :=
  fun _ hs => ⟨fun _ _ => trivial, fun _ hm _ writes =>
    mem_localNames (Node.mem_own_of_child rfl (List.mem_map_of_mem hs) hm) writes⟩

namespace FlowRun.Arrives

variable {run : FlowRun} {top above : List Node} {body : Block} {depth : Nat} {loop : Stmt}
  {stop : Stop} {s head : FlowState} {round : Round}

/-- Wherever the walk of a body comes to, the head of a loop or not, its state is over the
locals that the body declares or assigns. -/
theorem within_localNames (arrives : run.Arrives top body.stmts stop s) :
    s.Within body.localNames :=
  (arrives.within Block.admits_localNames).2

/-- Every loop that the walk of a body comes to settles, from every state at its head. -/
theorem settles (arrives : run.Arrives top body.stmts (.head above depth loop) head)
    (isRound : run.IsRound above depth loop round) (exit : Option FlowState) (t : Trace) :
    Settles round (2 * body.localNames.length + 1) head exit t := by
  obtain ⟨admits, known⟩ := arrives.within Block.admits_localNames
  exact FlowRun.settles admits isRound known exit t

end FlowRun.Arrives

/-! ## Queries -/

namespace FlowQuery

/-- Let `n` be the number of locals that the body of a query declares or assigns. However
often the query may go round a loop, if it is `2 n + 1` times or more it finds the same
sinks in the same order, after asking about the same guards. For every loop of the body
comes to rest within `2 n + 1` rounds, wherever it stands and whatever state over these
locals it is entered in. Locals that are only read never hold the value. -/
theorem findSinks_settled {start : Path} {index : Nat} {body : Block}
    (inBody : start.outerBody? = some (index, body)) (spec : FlowSpec) (maxDepth : Nat)
    {rounds rounds' : Nat} (often : 2 * body.localNames.length + 1 ≤ rounds)
    (often' : 2 * body.localNames.length + 1 ≤ rounds') :
    (⟨start, ⟨maxDepth, rounds⟩⟩ : FlowQuery).findSinks spec =
        (⟨start, ⟨maxDepth, rounds'⟩⟩ : FlowQuery).findSinks spec ∧
      ∀ (run : FlowRun) (above : List Node) (depth : Nat) (stmt : Stmt) (round : FlowRun.Round),
        Node.stmt stmt ∈ (Node.block body).own → run.IsRound above depth stmt round →
        ∀ head : FlowState, head.Within body.localNames → ∀ (exit : Option FlowState) (t : Trace),
          FlowRun.Settles round (2 * body.localNames.length + 1) head exit t := by
  constructor
  · unfold findSinks trace
    simp only [inBody]
    split
    next source starts =>
      split
      next =>
        let run : FlowRun := ⟨spec, ⟨maxDepth, rounds⟩, source, false⟩
        let above := (start.upTo (index + 1)).outward
        have sound : (run.resting body.localNames rounds').Sound :=
          FlowRun.resting_sound fun head => .inr
            ⟨by show _ < rounds + _; omega, by omega⟩
        have parts : ∀ stmt ∈ body.stmts,
            (run.resting body.localNames rounds').Walked above 0 (.stmt stmt) :=
          fun stmt hs => sound.walked (.stmt stmt) above 0 (Block.admits_localNames stmt hs)
        have same : (run.execAll above 0 body.stmts .empty ⟨[], [], []⟩).2 =
            ((run.going rounds').execAll above 0 body.stmts .empty ⟨[], [], []⟩).2 :=
          (sound.execAll 0 body.stmts parts ⟨rfl, FlowState.within_empty⟩ ⟨[], [], []⟩).1
        exact congrArg (fun t : Trace => (⟨start, t.sinks, t.guards⟩ : FlowResult)) same
      · rfl
    · rfl
  · intro run above depth stmt round mem isRound head within exit t
    refine FlowRun.settles ⟨fun _ _ => trivial, fun m hm x writes => ?_⟩ isRound within exit t
    exact Block.mem_localNames (Node.own_subset mem hm) writes

end FlowQuery

namespace Relay

/-- `"x"` -/
def text : Expr := ⟨0, .string, .literal (.string "x")⟩

/-- `String s = "x", a, b;` -/
def declaration : Stmt :=
  ⟨1, .declare ⟨[], "String", [⟨2, "s", .string, some text⟩, ⟨3, "a", .string, none⟩,
    ⟨4, "b", .string, none⟩]⟩⟩

def read (id : NodeId) (name : String) : Expr := ⟨id, .string, .ident name none⟩

/-- `target = source;` -/
def move (id : NodeId) (target source : String) : Stmt :=
  ⟨id, .expr ⟨id + 1, .string, .assign none (read (id + 2) target) (read (id + 3) source)⟩⟩

/-- `while (true) { b; b = a; a = s; }` -/
def loop : Stmt :=
  ⟨5, .whileLoop ⟨6, .boolean, .literal (.boolean true)⟩
    ⟨7, .block ⟨8, false, [⟨9, .expr (read 10 "b")⟩, move 11 "b" "a", move 15 "a" "s"]⟩⟩⟩

/-- A static initializer. -/
def body : Block := ⟨19, true, [declaration, loop]⟩

def start : Path :=
  ⟨[.expr text, .var ⟨2, "s", .string, some text⟩, .stmt declaration, .block body]⟩

/-- From the text to anything that it gets to itself. -/
def spec : FlowSpec where
  kind := .value
  isSource _ := true
  isSink _ := true
  sanitizes := none

/-- The sinks that are found if loops are walked so often. -/
def found (rounds : Nat) : List NodeId :=
  ((⟨start, ⟨4, rounds⟩⟩ : FlowQuery).findSinks spec).sinks.map (·.expr.id)

/-- The text gets from `s` to `a` in the first round, from there to `b` in the second, and
the read of `b` is found in the third: with three locals seven rounds are enough. -/
theorem findSinks_relay :
    start.outerBody? = some (0, body) ∧ 2 * body.localNames.length + 1 = 7 ∧
      found 7 = [0, 18, 16, 14, 12, 10] ∧
      (⟨start, ⟨4, 7⟩⟩ : FlowQuery).findSinks spec =
        (⟨start, ⟨4, 1000⟩⟩ : FlowQuery).findSinks spec := by
  have inBody : start.outerBody? = some (0, body) := rfl
  have often : 2 * body.localNames.length + 1 = 7 := by decide +kernel
  exact ⟨inBody, often, by decide +kernel,
    (FlowQuery.findSinks_settled inBody spec 4 often.le (by omega)).1⟩

example : found 2 = [0, 18, 16, 14, 12] := by decide +kernel

end Relay

end JavaMend
