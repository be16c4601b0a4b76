import MegaZK.Lib.Kahn
import MegaZK.Witgen.Generator

/-! # Scheduling the witness generators

`WitnessService::build` up to the placement of every generator in a layer: the producers of the
targets, the dependency sets, the `asap` and `alap` levels, and the three scheduling modes. -/

namespace MegaZK

/-- The hash sets `build` iterates over. -/
inductive HashSetName
  | pred (i : ℕ)
  | succ (i : ℕ)
  | remaining

/-- The iteration order of the hash sets: any order of the elements. -/
structure HashOrder where
  iter : HashSetName → List ℕ → List ℕ
  perm : ∀ name l, (iter name l).Perm l

/-- Hash sets iterated in insertion order. -/
def HashOrder.insertion : HashOrder where
  iter _ l := l
  perm _ l := .refl l

/-- Who provides a target: an input (`usize::MAX` in the source) or a generator. -/
inductive Producer
  | input
  | generator (i : ℕ)
  deriving DecidableEq, Repr

/-! ### The producers of the targets -/

/-- `target_producer`, `indeg_target` and the vector newly ready generators are pushed to:
`cur_generators` while the inputs are read, `next_generators` during a round. -/
structure Bfs where
  targetProducer : ℕ → Option Producer
  indegTarget : ℕ → ℕ
  pushed : List ℕ

namespace Bfs

variable (a : BuildArgs)

/-- One more of the targets watched by generator `g` is available. -/
def notify (s : Bfs) (g : ℕ) : Bfs :=
  let indegTarget := Function.update s.indegTarget g (s.indegTarget g - 1)
  { s with
    indegTarget := indegTarget
    pushed := if indegTarget g = 0 then s.pushed ++ [g] else s.pushed }

/-- `who` provides `rep`, unless it was provided before. -/
def produce (who : Producer) (s : Bfs) (rep : ℕ) : Bfs :=
  if (s.targetProducer rep).isSome then s
  else (a.generatorIndicesByWatches rep).foldl notify
    { s with targetProducer := Function.update s.targetProducer rep (some who) }

/-- Generators that watch nothing are ready from the start. -/
def init : Bfs :=
  let indegTarget := fun i => (a.watchReps i).dedup.length
  { targetProducer := fun _ => none
    indegTarget := indegTarget
    pushed := (List.range a.n).filter (indegTarget · = 0) }

/-- The inputs provide their representatives. -/
def inputs : Bfs := a.inputReps.foldl (produce a .input) (init a)

/-- A ready generator provides its outputs. -/
def outputs (s : Bfs) (g : ℕ) : Bfs := (a.outputReps g).foldl (produce a (.generator g)) s

/-- Rounds over `cur` until no generator becomes ready. -/
def rounds : ℕ → List ℕ → Bfs → Option Bfs
  | 0, cur, s => if cur = [] then some s else none
  | fuel + 1, cur, s =>
    if cur = [] then some s
    else
      let s' := cur.foldl (outputs a) { s with pushed := [] }
      rounds fuel s'.pushed s'

/-- The whole search. A round runs at least one generator and none runs twice, so `n` rounds
are enough. -/
def run : Option Bfs := rounds a a.n (inputs a).pushed (inputs a)

end Bfs

/-! ### Levels -/

/-- The dependency sets with the earliest and the latest level of every generator. -/
structure Levels where
  pred : ℕ → List ℕ
  succ : ℕ → List ℕ
  asap : ℕ → ℕ
  alap : ℕ → ℕ
  maxLevel : ℕ

/-- The generators, other than `i`, that provide what `i` watches. -/
def BuildArgs.predOf (a : BuildArgs) (targetProducer : ℕ → Option Producer) (i : ℕ) : List ℕ :=
  ((a.watchReps i).filterMap fun rep =>
    match targetProducer rep with
    | some (.generator p) => if p ≠ i then some p else none
    | _ => none).dedup

/-- The generators that have `p` among their predecessors. -/
def BuildArgs.succOf (a : BuildArgs) (pred : ℕ → List ℕ) (p : ℕ) : List ℕ :=
  (List.range a.n).filter (p ∈ pred ·)

/-- One pass over the dependency graph, with the assertion that closes it. -/
def levelPass (n : ℕ) (next : ℕ → List ℕ) (relax : ℕ → ℕ → ℕ) (deg init : ℕ → ℕ) :
    Except String (ℕ → ℕ) :=
  match Kahn.run next relax n (Kahn.start n deg init) with
  | none => .error "out of fuel"
  | some s =>
    if s.remaining = 0 then .ok s.level
    else .error s!"{s.remaining} generators weren't run"

/-- The dependency sets and the two level passes of `build`. -/
def BuildArgs.levels (h : HashOrder) (a : BuildArgs) : Except String Levels :=
  match Bfs.run a with
  | none => .error "out of fuel"
  | some s =>
    let pred := a.predOf s.targetProducer
    let succ := a.succOf pred
    match levelPass a.n (fun u => h.iter (.succ u) (succ u)) (fun l lu => max l (lu + 1))
        (fun i => (pred i).length) (fun _ => 0) with
    | .error e => .error e
    | .ok asap =>
      match ((List.range a.n).map asap).max? with
      | none => .error "called `Option::unwrap()` on a `None` value"
      | some maxLevel =>
        match levelPass a.n (fun u => h.iter (.pred u) (pred u)) (fun l lu => min l (lu - 1))
            (fun i => (succ i).length) (fun _ => maxLevel) with
        | .error e => .error e
        | .ok alap => .ok { pred, succ, asap, alap, maxLevel }

/-! ### Placement -/

/-- The batches of one layer: the generators of each id, in the order they were placed. -/
abbrev Batches := Std.TreeMap String (List ℕ)

/-- `entry(ty).or_default().push(g)`. -/
def Batches.push (m : Batches) (ty : String) (g : ℕ) : Batches :=
  m.alter ty fun l => some (l.getD [] ++ [g])

/-- The layers and the level of every placed generator (`usize::MAX` in the source when it is
not placed yet). The `asap` and `alap` modes keep no `scheduled`; nothing reads it there. -/
structure Placement where
  layer : ℕ → Batches
  scheduled : ℕ → Option ℕ

namespace Placement

/-- Put generator `g` into the batch `ty` of a layer. -/
def place (ty : String) (level : ℕ) (s : Placement) (g : ℕ) : Placement where
  layer := Function.update s.layer level ((s.layer level).push ty g)
  scheduled := Function.update s.scheduled g (some level)

def empty : Placement where
  layer := fun _ => ∅
  scheduled := fun _ => none

end Placement

variable (h : HashOrder) (a : BuildArgs) (lv : Levels)

/-- Place the generators of a list one after the other, each at the level given for it. -/
def placeAt (level : ℕ → ℕ) (gs : List ℕ) (s : Placement) : Placement :=
  gs.foldl (fun s g => s.place (a.generator g).id (level g) g) s

/-- Generators without slack go to their only level. -/
def placeCritical : Placement :=
  placeAt a lv.asap ((List.range a.n).filter fun g => lv.alap g - lv.asap g = 0) .empty

/-- The generators not placed yet, in index order. -/
def unscheduled (s : Placement) : List ℕ :=
  (List.range a.n).filter fun g => (s.scheduled g).isNone

/-- `CHAIN_FAST_MIN_LEVELS`. -/
def chainFastMinLevels : ℕ := 8000

/-- The state of the level-by-level fill. -/
structure Fill where
  placement : Placement
  remainingByType : Batches

/-- May `g` go to `level`, as far as the generators placed so far tell? -/
def isCandidate (s : Placement) (level g : ℕ) : Bool :=
  lv.asap g ≤ level && level ≤ lv.alap g &&
    (lv.pred g).all fun p => (s.scheduled p).any (· < level) || lv.alap p < level

/-- Move the candidates of one type from its pool to a layer. All candidates are collected
before the first of them is placed. -/
def fillType (level : ℕ) (s : Fill) (ty : String) : Fill :=
  match s.remainingByType[ty]? with
  | none => s
  | some pool =>
    if pool = [] then s
    else
      { placement := (pool.filter (isCandidate lv s.placement level)).foldl
          (Placement.place ty level) s.placement
        remainingByType := s.remainingByType.insert ty
          (pool.filter fun g => ! isCandidate lv s.placement level g) }

/-- Visit the types that already have a batch in the layer. -/
def fillLevel (s : Fill) (level : ℕ) : Fill :=
  (s.placement.layer level).keys.foldl (fillType lv level) s

/-- Fill the layers from the first to the last. -/
def fill (s : Placement) : Fill :=
  (List.range (lv.maxLevel + 1)).foldl (fillLevel lv)
    { placement := s
      remainingByType := (unscheduled a s).foldl
        (fun m g => m.push (a.generator g).id g) ∅ }

/-- The first level a leftover generator may take: above its placed predecessors, and above
the latest level of the others. -/
def earliest (s : Placement) (g : ℕ) : ℕ :=
  (h.iter (.pred g) (lv.pred g)).foldl
    (fun r p =>
      match s.scheduled p with
      | some level => max r (level + 1)
      | none => max r (lv.alap p + 1))
    (lv.asap g)

/-- `level_buckets`. -/
abbrev Buckets := Std.TreeMap ℕ Batches

def Buckets.push (m : Buckets) (level : ℕ) (ty : String) (g : ℕ) : Buckets :=
  m.alter level fun b => some ((b.getD ∅).push ty g)

/-- Every remaining generator enters the bucket of its id at each level it may take. -/
def levelBuckets (s : Placement) (remaining : List ℕ) : Buckets :=
  (h.iter .remaining remaining).foldl
    (fun m g =>
      (List.range' (earliest h lv s g) (lv.alap g + 1 - earliest h lv s g)).foldl
        (fun m level => m.push level (a.generator g).id g) m)
    ∅

/-- The level, type and generators of a bucket. -/
structure Group where
  level : ℕ
  type : String
  gens : List ℕ

/-- The groups of the buckets, by level and then by type. -/
def Buckets.groups (m : Buckets) : List Group :=
  m.toList.flatMap fun b => b.2.toList.map fun t => ⟨b.1, t.1, t.2⟩

/-- The first group with the largest number of generators. -/
def bestGroup (gs : List Group) : Option Group :=
  gs.foldl
    (fun best g =>
      if g.gens.length > (best.elim 0 fun b => b.gens.length) then some g else best)
    none

/-- Place the largest bucket until no generator remains. -/
def placeLeftover : ℕ → List ℕ → Placement → Except String Placement
  | 0, remaining, s => if remaining = [] then .ok s else .error "out of fuel"
  | fuel + 1, remaining, s =>
    if remaining = [] then .ok s
    else
      match bestGroup (levelBuckets h a lv s remaining).groups with
      | none => .error "no schedulable generators"
      | some best =>
        placeLeftover fuel (remaining.filter (· ∉ best.gens))
          (best.gens.foldl (Placement.place best.type best.level) s)

/-- `PLONKY2_WITGEN_SCHEDULING`. -/
inductive Scheduling
  | asap
  | alap
  | custom
  deriving DecidableEq, Repr

/-- The environment variable selects the mode; the default is `custom`. -/
def Scheduling.ofEnv (var : Option String) : Scheduling :=
  let scheduling := var.getD "custom"
  if scheduling = "asap" then .asap
  else if scheduling = "alap" then .alap
  else .custom

/-- The custom mode after the generators without slack were placed. The flag is `chain_fast`. -/
def placeCustom (s : Placement) : Except String (Placement × Bool) :=
  if unscheduled a s = [] ∨ lv.maxLevel > chainFastMinLevels then
    .ok (placeAt a lv.asap (unscheduled a s) s, true)
  else
    let f := fill a lv s
    let remaining := (f.remainingByType.toList.map Prod.snd).flatten
    (placeLeftover h a lv remaining.length remaining f.placement).map (·, false)

/-- The placement of every generator, by mode. -/
def placeGenerators : Scheduling → Except String (Placement × Bool)
  | .asap => .ok (placeAt a lv.asap (List.range a.n) .empty, false)
  | .alap => .ok (placeAt a lv.alap (List.range a.n) .empty, false)
  | .custom => placeCustom h a lv (placeCritical a lv)

/-- What `build` has computed once every generator is in a layer. -/
structure Schedule where
  levels : Levels
  layer : ℕ → Batches
  chainFast : Bool

/-- The scheduling part of `WitnessService::build`. -/
def WitnessService.schedule (mode : Scheduling) : Except String Schedule :=
  match a.levels h with
  | .error e => .error e
  | .ok lv =>
    match placeGenerators h a lv mode with
    | .error e => .error e
    | .ok (s, chainFast) => .ok { levels := lv, layer := s.layer, chainFast }

end MegaZK
