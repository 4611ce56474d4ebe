import GraphMini.Codegen.Nested
import GraphMini.Exec.Machine

/-!
# Running a nested program

A worker that is given a subrange runs the loop of `operator()` over it and adds to its own counter. A
parallel region comes back when all of its subranges have been run. How a region is split, who gets a
part and which part comes first is a parameter.
-/

namespace GraphMini

/-- A part of a range, and the worker that runs it. -/
structure Subrange (workers : ℕ) where
  worker : Fin workers
  lower : ℕ
  upper : ℕ
deriving DecidableEq, Repr

def Subrange.indices {workers : ℕ} (r : Subrange workers) : List ℕ :=
  List.range' r.lower (r.upper - r.lower)

/-- What `tbb::parallel_for` makes of the range of `n` indices at a position of the run: the subranges
in the order in which they are run. -/
abbrev Splitter (workers : ℕ) : Type := List ℕ → ℕ → List (Subrange workers)

/-- The body is run once for each index. -/
def Splitter.Partitions {workers : ℕ} (split : Splitter workers) : Prop :=
  ∀ path n, ((split path n).flatMap Subrange.indices).Perm (List.range n)

/-- What the workers share: the mini-graphs and `ctx.per_thread_result`. -/
structure Shared (M : MgMachine) (workers : ℕ) where
  state : M.State
  counters : Fin workers → ℤ

variable {M : MgMachine} {workers : ℕ}

namespace Shared

/-- `cc& counter = ctx.per_thread_result.at(worker_id);` -/
def frame (s : Shared M workers) (env : Env) (worker : Fin workers) : Frame M where
  env := env
  state := s.state
  counter := s.counters worker

def update (s : Shared M workers) (worker : Fin workers) (f : Frame M) : Shared M workers where
  state := f.state
  counters := Function.update s.counters worker f.counter

def leave (s : Shared M workers) (keep : ℤ → Bool) : Shared M workers :=
  { s with state := M.leave s.state keep }

end Shared

def ParTest.taken (env : Env) : ParTest → Option Bool
  | .always => some true
  | .sizeAbove setId bound => do
      let s : VertexSet ← env (.set setId)
      return decide (bound < s.size)

/-- The call, if there is one and its test lets it happen. -/
def takenCall (env : Env) : Option ParCall → Option (Option ParCall)
  | none => some none
  | some call => do return if ← call.test.taken env then some call else none

/-- How a parallel region is run: the position, the variables at the call, the mini-graphs that live on
when a scope inside ends, and what is shared. -/
abbrev Region (M : MgMachine) (workers : ℕ) : Type :=
  ParCall → List ℕ → Env → (ℤ → Bool) → Shared M workers → Option (Shared M workers)

/-- A loop body of a class. A region that is called takes the place of the loop below. `outside` are
the mini-graphs around the class. -/
def execParBlock (g : Graph) (region : Region M workers) (worker : Fin workers) (outside : ℤ → Bool) :
    Block → List ℕ → Env → Shared M workers → Option (Shared M workers)
  | .last stmts, path, env, s =>
      (execStmts g path stmts (s.frame env worker)).map fun result => s.update worker result.2
  | .loop stmts call dep iter body, path, env, s => do
      match ← execStmts g path stmts (s.frame env worker) with
      | (.skip, f) => return s.update worker f
      | (.next, f) =>
          let alive := fun mg => outside mg || f.env.declared (.mg mg)
          match ← takenCall f.env call with
          | some call => region call path f.env alive (s.update worker f)
          | none =>
              let set : VertexSet ← f.env (.set iter)
              (List.range set.size).foldlM
                (fun s (i : ℕ) => do
                  let s ← execParBlock g region worker outside body (path ++ [i])
                    (f.env.set (.idx dep) i) s
                  return s.leave alive)
                (s.update worker f)

namespace LoopClass

/-- The constructor takes references to the arguments, which have the names of the members. -/
def construct (cls : LoopClass) (env : Env) (args : List Var) : Option Env :=
  if args = cls.members.map Decl.var ∧ ∀ v ∈ args, env.declared v then
    some fun v => if v ∈ args then env v else none
  else none

/-- The variables when `operator()` enters a round of its loop. -/
def enter (members : Env) : ℕ → ℕ → Env
  | 0, i => members.set (.id 0) i
  | loop + 1, i => members.set (.idx (loop + 1)) i

end LoopClass

/-- `operator()` on a subrange. -/
def execRange (g : Graph) (region : Region M workers) (cls : LoopClass) (loop : ℕ) (path : List ℕ)
    (members : Env) (outside : ℤ → Bool) (s : Shared M workers) (r : Subrange workers) :
    Option (Shared M workers) :=
  r.indices.foldlM
    (fun s (i : ℕ) => do
      let s ← execParBlock g region r.worker outside cls.body (path ++ [i])
        (LoopClass.enter members loop i) s
      return s.leave outside)
    s

/-- `tbb::parallel_for` with an object of the called class. A region has only regions of later classes
inside, so the number of the classes bounds the depth. -/
def execCall (g : Graph) (loops : List LoopClass) (split : Splitter workers) : ℕ → Region M workers
  | 0, _, _, _, _, _ => none
  | fuel + 1, call, path, env, alive, s => do
      let cls ← loops[call.loop]?
      let members ← cls.construct env call.args
      let set : VertexSet ← env (.set call.iter)
      (split path set.size).foldlM
        (execRange g (execCall g loops split fuel) cls call.loop path members alive) s

/-- The counters of the workers at the end of `plan`. -/
def runNested (M : MgMachine) (g : Graph) (prog : NestedProgram) (split : Splitter workers) :
    Option (Fin workers → ℤ) := do
  let cls ← prog.loops[0]?
  let members ← cls.construct Env.empty []
  let region : Region M workers := execCall g prog.loops split prog.loops.length
  let s ← (split [] g.getVnum).foldlM
    (execRange g region cls 0 [] members fun _ => false) { state := M.empty, counters := fun _ => 0 }
  return s.counters

/-- The classes are self-contained, and a call hands over what the class takes that it calls. -/
def NestedProgram.Closed (prog : NestedProgram) : Prop :=
  ∀ (loop : ℕ) (cls : LoopClass), prog.loops[loop]? = some cls → cls.SelfContained loop ∧
    ∀ call ∈ cls.body.calls, ∃ target, prog.loops[call.loop]? = some target ∧ cls.Passes call target

theorem NestedProgram.closed_iff (prog : NestedProgram) :
    prog.Closed ↔ ∀ loop < prog.loops.length, ∀ cls ∈ prog.loops[loop]?, cls.SelfContained loop ∧
      ∀ call ∈ cls.body.calls, ∃ target ∈ prog.loops[call.loop]?, cls.Passes call target := by
  constructor
  · exact fun h loop _ cls hcls => h loop cls hcls
  · intro h loop cls hcls
    exact h loop (List.getElem?_eq_some_iff.mp hcls).1 cls hcls

instance (prog : NestedProgram) : Decidable prog.Closed := decidable_of_iff _ prog.closed_iff.symm

end GraphMini
