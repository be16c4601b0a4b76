import MegaZK.Lib.Text
import MegaZK.Quotient.GateTypes

/-! # The dispatch of gates

The quotient evaluator finds a gate's kernel by the id up to its first `Gate`, and the kernel's
parameters by searching the id for the names of fields. Ids are ASCII up to the last field that is
searched, so that positions count characters. -/

namespace MegaZK

/-! ### Source -/

/-- The kernels of `gate_partial_kernel`. -/
inductive GatePartialKernel
  | noop
  | constant
  | publicInput
  | arithmetic
  | poseidon
  | baseSum
  | u32Interleave
  | uninterleaveToU32
  | u32AddMany
  | u32Arithmetic
  | u32Subtraction
  | comparison
  | u32RangeCheck
  | randomAccess
  deriving DecidableEq

/-- The arguments of a launch that come from the gate. -/
structure GateLaunch where
  function : GatePartialKernel
  param1 : ℕ
  param2 : ℕ
  param3 : ℕ
  deriving DecidableEq

/-- `.parse().unwrap_or(0)` into a `u32`. -/
def parseU32 (s : List Char) : ℕ := (Text.parse (2 ^ 32) s).getD 0

/-- A parameter of a kernel: the number between `pat` and the next `stop`. It stays zero where
`pat` does not occur. -/
def fieldParam (pat : String) (stop : Char) (gateName : List Char) : Except String ℕ :=
  match Text.find pat.toList gateName with
  | none => .ok 0
  | some start =>
    match Text.find [stop] (gateName.drop start) with
    | none => .error "unwrap on a None value"
    | some offset =>
      let last := offset + start
      if start + pat.length ≤ last then
        .ok (parseU32 (Text.trim ((gateName.take last).drop (start + pat.length))))
      else .error "begin is after end when slicing"

/-- A parameter of a kernel: the number from `pat` to the end. -/
def lastParam (pat : String) (gateName : List Char) : ℕ :=
  match Text.find pat.toList gateName with
  | none => 0
  | some start => parseU32 (Text.trim (gateName.drop (start + pat.length)))

/-- The kernel for the name of a gate type, with its parameters. No kernel is launched for other
names, which are not an error. -/
def gateFunction (gateType : String) (gateName : List Char) : Except String (Option GateLaunch) :=
  match gateType with
  | "NoopGate" => .ok (some ⟨.noop, 0, 0, 0⟩)
  | "ConstantGate" => do
    let param1 ← fieldParam "num_consts:" '}' gateName
    .ok (some ⟨.constant, param1, 0, 0⟩)
  | "PublicInputGate" => .ok (some ⟨.publicInput, 0, 0, 0⟩)
  | "ArithmeticGate" => do
    let param1 ← fieldParam "num_ops:" '}' gateName
    .ok (some ⟨.arithmetic, param1, 0, 0⟩)
  | "PoseidonGate" => .ok (some ⟨.poseidon, 0, 0, 0⟩)
  | "BaseSumGate" => do
    let param1 ← fieldParam "num_limbs:" '}' gateName
    .ok (some ⟨.baseSum, param1, lastParam "Base:" gateName, 0⟩)
  | "U32InterleaveGate" => do
    let param1 ← fieldParam "num_ops:" '}' gateName
    .ok (some ⟨.u32Interleave, param1, 0, 0⟩)
  | "UninterleaveToU32Gate" => do
    let param1 ← fieldParam "num_ops:" '}' gateName
    .ok (some ⟨.uninterleaveToU32, param1, 0, 0⟩)
  | "U32AddManyGate" => do
    let param1 ← fieldParam "num_addends:" ',' gateName
    let param2 ← fieldParam "num_ops:" ',' gateName
    .ok (some ⟨.u32AddMany, param1, param2, 0⟩)
  | "U32ArithmeticGate" => do
    let param1 ← fieldParam "num_ops:" ',' gateName
    .ok (some ⟨.u32Arithmetic, param1, 0, 0⟩)
  | "U32SubtractionGate" => do
    let param1 ← fieldParam "num_ops:" ',' gateName
    .ok (some ⟨.u32Subtraction, param1, 0, 0⟩)
  | "ComparisonGate" => do
    let param1 ← fieldParam "num_bits:" ',' gateName
    let param2 ← fieldParam "num_chunks:" ',' gateName
    .ok (some ⟨.comparison, param1, param2, 0⟩)
  | "U32RangeCheckGate" => do
    let param1 ← fieldParam "num_input_limbs:" ',' gateName
    .ok (some ⟨.u32RangeCheck, param1, 0, 0⟩)
  | "RandomAccessGate" => do
    let param1 ← fieldParam "bits:" ',' gateName
    let param2 ← fieldParam "num_copies:" ',' gateName
    let param3 ← fieldParam "num_extra_constants:" ',' gateName
    .ok (some ⟨.randomAccess, param1, param2, param3⟩)
  | _ => .ok none

/-- `&gate_name[..(pos + 4)]`, where `Gate` occurs. -/
def gateTypeName (gateName : String) : Option String :=
  (Text.find "Gate".toList gateName.toList).map fun pos =>
    String.ofList (gateName.toList.take (pos + 4))

/-- `evaluate_gate` up to the launch. -/
def evaluateGate (gateName : String) : Except String (Option GateLaunch) :=
  match gateTypeName gateName with
  | some gateType => gateFunction gateType gateName.toList
  | none => .ok none

/-- The gates of `compute_part`, which stops at the first error. -/
def launchGates (gateNames : List String) : Except String (List GateLaunch) :=
  gateNames.foldlM
    (fun launches gateName => do
      let launch ← evaluateGate gateName
      .ok (launches ++ launch.toList))
    []

/-- What a field is read as. -/
def wrapU32 (n : ℕ) : ℕ := if n < 2 ^ 32 then n else 0

/-- The launch that computes a gate's constraints: its kernel with the values of its fields. -/
def GateType.launch : GateType → Option GateLaunch
  | noop => some ⟨.noop, 0, 0, 0⟩
  | constant numConsts => some ⟨.constant, numConsts, 0, 0⟩
  | publicInput => some ⟨.publicInput, 0, 0, 0⟩
  | arithmetic numOps => some ⟨.arithmetic, numOps, 0, 0⟩
  | poseidon => some ⟨.poseidon, 0, 0, 0⟩
  | baseSum numLimbs b => some ⟨.baseSum, numLimbs, b, 0⟩
  | u32Interleave numOps => some ⟨.u32Interleave, numOps, 0, 0⟩
  | uninterleaveToU32 numOps => some ⟨.uninterleaveToU32, numOps, 0, 0⟩
  | u32AddMany numAddends numOps => some ⟨.u32AddMany, numAddends, numOps, 0⟩
  | u32Arithmetic numOps => some ⟨.u32Arithmetic, numOps, 0, 0⟩
  | u32Subtraction numOps => some ⟨.u32Subtraction, numOps, 0, 0⟩
  | comparison numBits numChunks => some ⟨.comparison, numBits, numChunks, 0⟩
  | u32RangeCheck numInputLimbs => some ⟨.u32RangeCheck, numInputLimbs, 0, 0⟩
  | randomAccess bits numCopies numExtraConstants =>
    some ⟨.randomAccess, bits, numCopies, numExtraConstants⟩
  | _ => none

/-- The launch with every parameter as it is read. -/
def GateLaunch.parsed (l : GateLaunch) : GateLaunch :=
  ⟨l.function, wrapU32 l.param1, wrapU32 l.param2, wrapU32 l.param3⟩

/-! ### Parameters -/

lemma parseU32_trim {n : ℕ} {w : List Char} (hw : ∀ c ∈ w, c = ' ') :
    parseU32 (Text.trim (' ' :: (Nat.toDigits 10 n ++ w))) = wrapU32 n := by
  have hspace : ∀ c : Char, c = ' ' → Text.isWhitespace c := by
    rintro c rfl
    rfl
  have htrim : Text.trim ([' '] ++ (Nat.toDigits 10 n ++ w)) = Nat.toDigits 10 n :=
    Text.trim_append (fun c hc => hspace c (List.mem_singleton.mp hc))
      (fun c hc => Text.isDigit_of_mem_toDigits hc) fun c hc => hspace c (hw c hc)
  rw [List.singleton_append] at htrim
  rw [htrim, parseU32, Text.parse_toDigits (by decide), wrapU32]
  split_ifs <;> rfl

/-- The text between the first occurrence of `pat` and the next `stop`. -/
lemma fieldParam_eq {pat : String} {stop : Char} {a s q : List Char}
    (ha : Text.Clear pat.toList a) (hs : stop ∉ pat.toList ++ s) :
    fieldParam pat stop (a ++ (pat.toList ++ s ++ stop :: q)) = .ok (parseU32 (Text.trim s)) := by
  have hstart : Text.find pat.toList (a ++ (pat.toList ++ s ++ stop :: q)) = some a.length := by
    rw [List.append_assoc pat.toList]
    exact Text.find_append_self ha _
  have hstop : Text.find [stop] (pat.toList ++ s ++ stop :: q) =
      some (pat.toList ++ s).length :=
    Text.find_append_self (Text.clear_of_notMem hs) q
  have hlast : (pat.toList ++ s).length + a.length = (a ++ (pat.toList ++ s)).length := by
    rw [Nat.add_comm, ← List.length_append]
  have hfirst : a.length + pat.length = (a ++ pat.toList).length := by
    rw [List.length_append, String.length_toList]
  have hle : (a ++ pat.toList).length ≤ (a ++ (pat.toList ++ s)).length := by
    simp only [List.length_append]
    omega
  have hslice : ((a ++ (pat.toList ++ s ++ stop :: q)).take (a ++ (pat.toList ++ s)).length).drop
      (a ++ pat.toList).length = s := by
    rw [← List.append_assoc a (pat.toList ++ s), List.take_left, ← List.append_assoc a,
      List.drop_left]
  simp only [fieldParam, hstart, List.drop_left, hstop, hlast, hfirst, if_pos hle, hslice]

/-- A field is read as it is printed, if it is a `u32`. -/
lemma fieldParam_append {pat : String} {stop : Char} {a w gateName : List Char} {n : ℕ}
    (ha : Text.Clear pat.toList a) (hpat : stop ∉ pat.toList) (hw : ∀ c ∈ w, c = ' ')
    (hdigit : stop.isDigit = false) (hspace : stop ≠ ' ')
    (h : a ++ (pat.toList ++ ' ' :: (Nat.toDigits 10 n ++ w) ++ [stop]) <+: gateName) :
    fieldParam pat stop gateName = .ok (wrapU32 n) := by
  obtain ⟨q, rfl⟩ := h
  have hbetween : stop ∉ pat.toList ++ ' ' :: (Nat.toDigits 10 n ++ w) := by
    simp only [List.mem_append, List.mem_cons, not_or]
    exact ⟨hpat, hspace, Text.notMem_toDigits hdigit, fun hmem => hspace (hw _ hmem)⟩
  rw [List.append_assoc a, List.append_assoc _ [stop], List.singleton_append,
    fieldParam_eq ha hbetween, parseU32_trim hw]

lemma lastParam_append {pat : String} {a gateName : List Char} {n : ℕ}
    (ha : Text.Clear pat.toList a)
    (h : gateName = a ++ (pat.toList ++ ' ' :: Nat.toDigits 10 n)) :
    lastParam pat gateName = wrapU32 n := by
  have hstart : Text.find pat.toList gateName = some a.length := by
    rw [h]
    exact Text.find_append_self ha _
  have hfirst : a.length + pat.length = (a ++ pat.toList).length := by
    rw [List.length_append, String.length_toList]
  simp only [lastParam, hstart, hfirst]
  rw [h, ← List.append_assoc, List.drop_left]
  simpa using parseU32_trim (n := n) (w := []) (by simp)

/-! ### Gate types -/

/-- A name that ends at its first `Gate`. -/
def EndsAtGate (gateType : String) : Prop :=
  gateType.toList.rdrop 4 ++ "Gate".toList = gateType.toList ∧
    Text.Clear "Gate".toList (gateType.toList.rdrop 4)

instance : DecidablePred EndsAtGate :=
  fun gateType => inferInstanceAs (Decidable (gateType.toList.rdrop 4 ++ "Gate".toList =
    gateType.toList ∧ Text.Clear "Gate".toList (gateType.toList.rdrop 4)))

lemma gateTypeName_eq {gateType gateName : String} (hgate : EndsAtGate gateType)
    (h : gateType.toList <+: gateName.toList) : gateTypeName gateName = some gateType := by
  obtain ⟨q, hq⟩ := h
  obtain ⟨hend, hclear⟩ := hgate
  have hfind : Text.find "Gate".toList gateName.toList = some (gateType.toList.rdrop 4).length := by
    have hself := Text.find_append_self hclear q
    rwa [← List.append_assoc, hend, hq] at hself
  have hlen : (gateType.toList.rdrop 4).length + 4 = gateType.toList.length := by
    rw [← congrArg List.length hend, List.length_append]
    rfl
  rw [gateTypeName, hfind, Option.map_some, hlen, ← hq, List.take_left, String.ofList_toList]

lemma evaluateGate_eq {gateType gateName : String} (hgate : EndsAtGate gateType)
    (h : gateType.toList <+: gateName.toList) :
    evaluateGate gateName = gateFunction gateType gateName.toList := by
  rw [evaluateGate, gateTypeName_eq hgate h]

/-! ### Fields of a struct -/

/-- A struct's rendering begins with its name. -/
lemma debugStruct_begins (name : String) (fields : List (String × String)) :
    name.toList <+: (debugStruct name fields).toList := by
  simp only [debugStruct, String.toList_append, List.append_assoc]
  exact List.prefix_append _ _

/-- The rendering of a struct up to the name of a field that follows numbers. -/
def debugBefore (name : String) (before : List (String × ℕ)) : List Char :=
  (name ++ " \x7b ").toList ++
    before.flatMap fun f => (f.1 ++ ": ").toList ++ (Nat.toDigits 10 f.2 ++ ", ".toList)

/-- `pat` is the name of a field, and does not begin in what is printed before the field. -/
@[mk_iff]
structure FieldPattern (pat : String) (stop : Char) (name : String) (names : List String)
    (field : String) : Prop where
  pat_eq : pat.toList = (field ++ ":").toList
  stop_notMem : stop ∉ pat.toList
  name : Text.Clear pat.toList (name ++ " \x7b ").toList
  names : ∀ f ∈ names, Text.Clear pat.toList (f ++ ": ").toList
  separator : Text.Clear pat.toList ", ".toList
  not_digit : pat.toList.head?.any Char.isDigit = false

instance (pat : String) (stop : Char) (name : String) (names : List String) (field : String) :
    Decidable (FieldPattern pat stop name names field) :=
  decidable_of_iff' _ (fieldPattern_iff pat stop name names field)

lemma FieldPattern.clear {pat : String} {stop : Char} {name field : String}
    {before : List (String × ℕ)} (h : FieldPattern pat stop name (before.map Prod.fst) field) :
    Text.Clear pat.toList (debugBefore name before) := by
  have hdigits : ∀ n : ℕ, Text.Clear pat.toList (Nat.toDigits 10 n) := by
    intro n
    have hhead := h.not_digit
    rw [h.pat_eq] at hhead ⊢
    cases hpat : (field ++ ":").toList with
    | nil => simp at hpat
    | cons c s =>
      rw [hpat] at hhead
      exact Text.clear_of_notMem (Text.notMem_toDigits hhead)
  have hbefore : ∀ l : List (String × ℕ), (∀ f ∈ l, f ∈ before) → Text.Clear pat.toList
      (l.flatMap fun f => (f.1 ++ ": ").toList ++ (Nat.toDigits 10 f.2 ++ ", ".toList)) := by
    intro l hl
    induction l with
    | nil => simp [Text.Clear]
    | cons f l ih =>
      have hf := h.names f.1 (List.mem_map_of_mem (hl f (List.mem_cons_self ..)))
      exact (hf.append ((hdigits f.2).append h.separator)).append
        (ih fun g hg => hl g (List.mem_cons_of_mem _ hg))
  exact h.name.append (hbefore before fun f hf => hf)

lemma toList_toString (n : ℕ) : (toString n).toList = Nat.toDigits 10 n := by simp

lemma intercalate_toString (before : List (String × ℕ)) (fields : List (String × String))
    (hne : fields ≠ []) :
    (", ".intercalate ((before.map fun f => (f.1, toString f.2)) ++ fields |>.map fun f =>
      f.1 ++ ": " ++ f.2)).toList =
      (before.flatMap fun f => (f.1 ++ ": ").toList ++ (Nat.toDigits 10 f.2 ++ ", ".toList)) ++
        (", ".intercalate (fields.map fun f => f.1 ++ ": " ++ f.2)).toList := by
  induction before with
  | nil => rfl
  | cons f before ih =>
    rw [List.map_cons, List.cons_append, List.map_cons, String.intercalate_cons_of_ne_nil,
      String.toList_append, String.toList_append, ih, List.flatMap_cons, String.toList_append,
      toList_toString]
    · simp only [List.append_assoc]
    · simp [hne]

lemma toList_debugStruct (name : String) (before : List (String × ℕ))
    (fields : List (String × String)) (hne : fields ≠ []) :
    (debugStruct name ((before.map fun f => (f.1, toString f.2)) ++ fields)).toList =
      debugBefore name before ++ ((", ".intercalate (fields.map fun f => f.1 ++ ": " ++ f.2)).toList ++
        " \x7d".toList) := by
  simp only [debugStruct, debugBefore, String.toList_append, intercalate_toString before _ hne,
    List.append_assoc]

/-- The last field of a struct, up to the brace. -/
lemma fieldParam_last {pat name field : String} {gateName : List Char} (before : List (String × ℕ))
    (n : ℕ) (h : FieldPattern pat '}' name (before.map Prod.fst) field)
    (hid : (debugStruct name ((before.map fun f => (f.1, toString f.2)) ++
      [(field, toString n)])).toList <+: gateName) :
    fieldParam pat '}' gateName = .ok (wrapU32 n) := by
  have hspace : ∀ c ∈ [' '], c = ' ' := by simp
  refine fieldParam_append h.clear h.stop_notMem hspace rfl (by decide) (List.IsPrefix.trans ?_ hid)
  rw [h.pat_eq, toList_debugStruct _ _ _ (List.cons_ne_nil _ _)]
  simp [String.intercalate_singleton]

/-- A field of a struct that others follow, up to the comma. -/
lemma fieldParam_inner {pat name field : String} {gateName : List Char} (before : List (String × ℕ))
    (n : ℕ) {next : String × String} {after : List (String × String)}
    (h : FieldPattern pat ',' name (before.map Prod.fst) field)
    (hid : (debugStruct name ((before.map fun f => (f.1, toString f.2)) ++
      (field, toString n) :: next :: after)).toList <+: gateName) :
    fieldParam pat ',' gateName = .ok (wrapU32 n) := by
  have hspace : ∀ c ∈ ([] : List Char), c = ' ' := by simp
  refine fieldParam_append h.clear h.stop_notMem hspace rfl (by decide) (List.IsPrefix.trans ?_ hid)
  rw [h.pat_eq, toList_debugStruct _ _ _ (List.cons_ne_nil _ _), List.map_cons, List.map_cons,
    String.intercalate_cons_cons]
  simp

/-! ### Ids -/

variable (field : String) (d : ℕ)

/-- A struct with one number: the kernel of its name is given the number. -/
lemma evaluateGate_single {name field pat : String} {kernel : GatePartialKernel} {n : ℕ}
    (hgate : EndsAtGate name) (hpat : FieldPattern pat '}' name [] field)
    (hfun : ∀ s, gateFunction name s = do
      let param1 ← fieldParam pat '}' s
      .ok (some ⟨kernel, param1, 0, 0⟩)) :
    evaluateGate (debugStruct name [(field, toString n)]) =
      .ok (some ⟨kernel, wrapU32 n, 0, 0⟩) := by
  have hparam : fieldParam pat '}' (debugStruct name [(field, toString n)]).toList =
      .ok (wrapU32 n) := fieldParam_last [] n hpat (List.prefix_refl _)
  rw [evaluateGate_eq hgate (debugStruct_begins _ _), hfun, hparam]
  rfl

/-- A struct with one number and the field's marker. -/
lemma evaluateGate_phantom {name field pat : String} {kernel : GatePartialKernel} {n : ℕ}
    {next : String × String} (hgate : EndsAtGate name) (hpat : FieldPattern pat ',' name [] field)
    (hfun : ∀ s, gateFunction name s = do
      let param1 ← fieldParam pat ',' s
      .ok (some ⟨kernel, param1, 0, 0⟩)) :
    evaluateGate (debugStruct name [(field, toString n), next]) =
      .ok (some ⟨kernel, wrapU32 n, 0, 0⟩) := by
  have hparam : fieldParam pat ',' (debugStruct name [(field, toString n), next]).toList =
      .ok (wrapU32 n) := fieldParam_inner [] n hpat (List.prefix_refl _)
  rw [evaluateGate_eq hgate (debugStruct_begins _ _), hfun, hparam]
  rfl

lemma prefix_append (s q : String) : s.toList <+: (s ++ q).toList := by
  rw [String.toList_append]
  exact List.prefix_append _ _

lemma evaluateGate_u32AddMany (numAddends numOps : ℕ) :
    evaluateGate (GateType.id field d (.u32AddMany numAddends numOps)) =
      .ok (some ⟨.u32AddMany, wrapU32 numAddends, wrapU32 numOps, 0⟩) := by
  let id := debugStruct "U32AddManyGate" [("num_addends", toString numAddends),
    ("num_ops", toString numOps), ("_phantom", debugPhantom field)]
  have hpat : FieldPattern "num_addends:" ',' "U32AddManyGate" [] "num_addends" := by
    decide
  have hpat' : FieldPattern "num_ops:" ',' "U32AddManyGate" ["num_addends"] "num_ops" := by
    decide
  have haddends : fieldParam "num_addends:" ',' id.toList = .ok (wrapU32 numAddends) :=
    fieldParam_inner [] numAddends hpat (List.prefix_refl _)
  have hops : fieldParam "num_ops:" ',' id.toList = .ok (wrapU32 numOps) :=
    fieldParam_inner [("num_addends", numAddends)] numOps hpat' (List.prefix_refl _)
  have hname : EndsAtGate "U32AddManyGate" := by decide
  change evaluateGate id = _
  rw [evaluateGate_eq hname (debugStruct_begins _ _)]
  change (do
    let param1 ← fieldParam "num_addends:" ',' id.toList
    let param2 ← fieldParam "num_ops:" ',' id.toList
    Except.ok (some (GateLaunch.mk .u32AddMany param1 param2 0))) = _
  rw [haddends, hops]
  rfl

lemma evaluateGate_comparison (numBits numChunks : ℕ) :
    evaluateGate (GateType.id field d (.comparison numBits numChunks)) =
      .ok (some ⟨.comparison, wrapU32 numBits, wrapU32 numChunks, 0⟩) := by
  let id := GateType.id field d (.comparison numBits numChunks)
  have hid : (debugStruct "ComparisonGate" [("num_bits", toString numBits),
      ("num_chunks", toString numChunks), ("_phantom", debugPhantom field)]).toList <+:
      id.toList := by
    change _ <+: (_ ++ "<D=" ++ toString d ++ ">").toList
    rw [String.append_assoc, String.append_assoc]
    exact prefix_append _ _
  have hpat : FieldPattern "num_bits:" ',' "ComparisonGate" [] "num_bits" := by
    decide
  have hpat' : FieldPattern "num_chunks:" ',' "ComparisonGate" ["num_bits"] "num_chunks" := by
    decide
  have hbits : fieldParam "num_bits:" ',' id.toList = .ok (wrapU32 numBits) :=
    fieldParam_inner [] numBits hpat hid
  have hchunks : fieldParam "num_chunks:" ',' id.toList = .ok (wrapU32 numChunks) :=
    fieldParam_inner [("num_bits", numBits)] numChunks hpat' hid
  have hname : EndsAtGate "ComparisonGate" := by decide
  change evaluateGate id = _
  rw [evaluateGate_eq hname ((debugStruct_begins _ _).trans hid)]
  change (do
    let param1 ← fieldParam "num_bits:" ',' id.toList
    let param2 ← fieldParam "num_chunks:" ',' id.toList
    Except.ok (some (GateLaunch.mk .comparison param1 param2 0))) = _
  rw [hbits, hchunks]
  rfl

/-- `bits:` occurs in no other field of the gate, and its name comes first. -/
lemma evaluateGate_randomAccess (bits numCopies numExtraConstants : ℕ) :
    evaluateGate (GateType.id field d (.randomAccess bits numCopies numExtraConstants)) =
      .ok (some ⟨.randomAccess, wrapU32 bits, wrapU32 numCopies, wrapU32 numExtraConstants⟩) := by
  let id := GateType.id field d (.randomAccess bits numCopies numExtraConstants)
  have hid : (debugStruct "RandomAccessGate" [("bits", toString bits),
      ("num_copies", toString numCopies), ("num_extra_constants", toString numExtraConstants),
      ("_phantom", debugPhantom field)]).toList <+: id.toList := by
    change _ <+: (_ ++ "<D=" ++ toString d ++ ">").toList
    rw [String.append_assoc, String.append_assoc]
    exact prefix_append _ _
  have hpat : FieldPattern "bits:" ',' "RandomAccessGate" [] "bits" := by decide
  have hpat' : FieldPattern "num_copies:" ',' "RandomAccessGate" ["bits"] "num_copies" := by
    decide
  have hpat'' : FieldPattern "num_extra_constants:" ',' "RandomAccessGate" ["bits", "num_copies"]
      "num_extra_constants" := by
    decide
  have hbits : fieldParam "bits:" ',' id.toList = .ok (wrapU32 bits) :=
    fieldParam_inner [] bits hpat hid
  have hcopies : fieldParam "num_copies:" ',' id.toList = .ok (wrapU32 numCopies) :=
    fieldParam_inner [("bits", bits)] numCopies hpat' hid
  have hconstants : fieldParam "num_extra_constants:" ',' id.toList =
      .ok (wrapU32 numExtraConstants) :=
    fieldParam_inner [("bits", bits), ("num_copies", numCopies)] numExtraConstants hpat'' hid
  have hname : EndsAtGate "RandomAccessGate" := by decide
  change evaluateGate id = _
  rw [evaluateGate_eq hname ((debugStruct_begins _ _).trans hid)]
  change (do
    let param1 ← fieldParam "bits:" ',' id.toList
    let param2 ← fieldParam "num_copies:" ',' id.toList
    let param3 ← fieldParam "num_extra_constants:" ',' id.toList
    Except.ok (some (GateLaunch.mk .randomAccess param1 param2 param3))) = _
  rw [hbits, hcopies, hconstants]
  rfl

/-- The base stands after the struct, where `BaseSumGate` is not taken for its name. -/
lemma evaluateGate_baseSum (numLimbs b : ℕ) :
    evaluateGate (GateType.id field d (.baseSum numLimbs b)) =
      .ok (some ⟨.baseSum, wrapU32 numLimbs, wrapU32 b, 0⟩) := by
  let id := GateType.id field d (.baseSum numLimbs b)
  have hid : (debugStruct "BaseSumGate" [("num_limbs", toString numLimbs)]).toList <+:
      id.toList := by
    change _ <+: (_ ++ " + Base: " ++ toString b).toList
    rw [String.append_assoc]
    exact prefix_append _ _
  have hpat : FieldPattern "num_limbs:" '}' "BaseSumGate" [] "num_limbs" := by decide
  have hlimbs : fieldParam "num_limbs:" '}' id.toList = .ok (wrapU32 numLimbs) :=
    fieldParam_last [] numLimbs hpat hid
  have hbefore : Text.Clear "Base:".toList ("BaseSumGate \x7b num_limbs: ".toList ++
      (Nat.toDigits 10 numLimbs ++ " \x7d + ".toList)) :=
    Text.Clear.append (by decide)
      ((Text.clear_of_notMem (Text.notMem_toDigits rfl)).append (by decide))
  have hbase : lastParam "Base:" id.toList = wrapU32 b := by
    refine lastParam_append hbefore ?_
    change (debugStruct "BaseSumGate" [("num_limbs", toString numLimbs)] ++ " + Base: " ++
      toString b).toList = _
    simp [debugStruct, String.intercalate_singleton]
  have hname : EndsAtGate "BaseSumGate" := by decide
  change evaluateGate id = _
  rw [evaluateGate_eq hname ((debugStruct_begins _ _).trans hid)]
  change (do
    let param1 ← fieldParam "num_limbs:" '}' id.toList
    Except.ok (some (GateLaunch.mk .baseSum param1 (lastParam "Base:" id.toList) 0))) = _
  rw [hlimbs, hbase]
  rfl

/-- The dispatch parses the fields of every gate that has a kernel. -/
lemma evaluateGate_id {g : GateType} {l : GateLaunch} (h : g.launch = some l) :
    evaluateGate (g.id field d) = .ok (some l.parsed) := by
  cases g with
  | noop =>
    cases h
    have hname : EndsAtGate "NoopGate" := by decide
    exact evaluateGate_eq hname (List.prefix_refl _)
  | publicInput =>
    cases h
    have hname : EndsAtGate "PublicInputGate" := by decide
    exact evaluateGate_eq hname (List.prefix_refl _)
  | poseidon =>
    cases h
    have hname : EndsAtGate "PoseidonGate" := by decide
    refine evaluateGate_eq hname ?_
    change _ <+: ("PoseidonGate(" ++ debugPhantom field ++ ")<WIDTH=12>").toList
    simp
  | arithmetic numOps =>
    cases h
    exact evaluateGate_single (by decide) (by decide) fun _ => rfl
  | constant numConsts =>
    cases h
    exact evaluateGate_single (by decide) (by decide) fun _ => rfl
  | u32Interleave numOps =>
    cases h
    exact evaluateGate_single (by decide) (by decide) fun _ => rfl
  | uninterleaveToU32 numOps =>
    cases h
    exact evaluateGate_single (by decide) (by decide) fun _ => rfl
  | u32Arithmetic numOps =>
    cases h
    exact evaluateGate_phantom (by decide) (by decide) fun _ => rfl
  | u32Subtraction numOps =>
    cases h
    exact evaluateGate_phantom (by decide) (by decide) fun _ => rfl
  | u32RangeCheck numInputLimbs =>
    cases h
    exact evaluateGate_phantom (by decide) (by decide) fun _ => rfl
  | u32AddMany numAddends numOps =>
    cases h
    exact evaluateGate_u32AddMany field d numAddends numOps
  | comparison numBits numChunks =>
    cases h
    exact evaluateGate_comparison field d numBits numChunks
  | randomAccess bits numCopies numExtraConstants =>
    cases h
    exact evaluateGate_randomAccess field d bits numCopies numExtraConstants
  | baseSum numLimbs b =>
    cases h
    exact evaluateGate_baseSum field d numLimbs b
  | _ => cases h

/-- The dispatch passes over a gate without a kernel. -/
lemma evaluateGate_id_none {g : GateType} (h : g.launch = none) :
    evaluateGate (g.id field d) = .ok none := by
  have hskip : ∀ (gateType gateName : String), EndsAtGate gateType →
      gateType.toList <+: gateName.toList → (∀ s, gateFunction gateType s = .ok none) →
      evaluateGate gateName = .ok none := by
    intro gateType gateName hgate hpre hfun
    rw [evaluateGate_eq hgate hpre, hfun]
  have hsuffix : ∀ (name : String) (fields : List (String × String)) (q r t : String),
      name.toList <+: (debugStruct name fields ++ q ++ r ++ t).toList := by
    intro name fields q r t
    rw [String.append_assoc, String.append_assoc]
    exact (debugStruct_begins name fields).trans (prefix_append _ _)
  cases g with
  | arithmeticExtension numOps =>
    exact hskip "ArithmeticExtensionGate" _ (by decide) (debugStruct_begins _ _) fun _ => rfl
  | cosetInterpolation subgroupBits degree weights =>
    exact hskip "CosetInterpolationGate" _ (by decide) (hsuffix _ _ _ _ _) fun _ => rfl
  | exponentiation numPowerBits =>
    exact hskip "ExponentiationGate" _ (by decide) (hsuffix _ _ _ _ _) fun _ => rfl
  | lookup numSlots lutHash =>
    refine hskip "LookupGate" _ (by decide) ?_ fun _ => rfl
    change _ <+: ("LookupGate \x7bnum_slots: " ++ _ ++ _ ++ _ ++ _).toList
    simp
  | lookupTable numSlots lutHash lastLutRow =>
    refine hskip "LookupTableGate" _ (by decide) ?_ fun _ => rfl
    change _ <+: ("LookupTableGate \x7bnum_slots: " ++ _ ++ _ ++ _ ++ _ ++ _ ++ _).toList
    simp
  | mulExtension numOps =>
    exact hskip "MulExtensionGate" _ (by decide) (debugStruct_begins _ _) fun _ => rfl
  | poseidonMds =>
    refine hskip "PoseidonMdsGate" _ (by decide) ?_ fun _ => rfl
    change _ <+: ("PoseidonMdsGate(" ++ debugPhantom field ++ ")<WIDTH=12>").toList
    simp
  | reducing numCoeffs =>
    exact hskip "ReducingGate" _ (by decide) (debugStruct_begins _ _) fun _ => rfl
  | reducingExtension numCoeffs =>
    exact hskip "ReducingExtensionGate" _ (by decide) (debugStruct_begins _ _) fun _ => rfl
  | uninterleaveToB32 numOps =>
    exact hskip "UninterleaveToB32Gate" _ (by decide) (debugStruct_begins _ _) fun _ => rfl
  | _ => cases h

/-! ### Round trip -/

/-- Every parameter is a `u32`. -/
def GateLaunch.InRange (l : GateLaunch) : Prop :=
  l.param1 < 2 ^ 32 ∧ l.param2 < 2 ^ 32 ∧ l.param3 < 2 ^ 32

instance : DecidablePred GateLaunch.InRange := fun l =>
  inferInstanceAs (Decidable (l.param1 < 2 ^ 32 ∧ l.param2 < 2 ^ 32 ∧ l.param3 < 2 ^ 32))

lemma wrapU32_eq_self_iff {n : ℕ} : wrapU32 n = n ↔ n < 2 ^ 32 := by
  rw [wrapU32]
  split_ifs with h
  · exact iff_of_true rfl h
  · exact iff_of_false (by omega) h

lemma GateLaunch.parsed_eq_self_iff (l : GateLaunch) : l.parsed = l ↔ l.InRange := by
  obtain ⟨kernel, param1, param2, param3⟩ := l
  simp only [GateLaunch.parsed, GateLaunch.InRange, GateLaunch.mk.injEq, true_and,
    wrapU32_eq_self_iff]

/-- The gate that a launch is for. -/
def GateLaunch.gate (l : GateLaunch) : GateType :=
  match l.function with
  | .noop => .noop
  | .constant => .constant l.param1
  | .publicInput => .publicInput
  | .arithmetic => .arithmetic l.param1
  | .poseidon => .poseidon
  | .baseSum => .baseSum l.param1 l.param2
  | .u32Interleave => .u32Interleave l.param1
  | .uninterleaveToU32 => .uninterleaveToU32 l.param1
  | .u32AddMany => .u32AddMany l.param1 l.param2
  | .u32Arithmetic => .u32Arithmetic l.param1
  | .u32Subtraction => .u32Subtraction l.param1
  | .comparison => .comparison l.param1 l.param2
  | .u32RangeCheck => .u32RangeCheck l.param1
  | .randomAccess => .randomAccess l.param1 l.param2 l.param3

lemma GateLaunch.gate_of_launch {g : GateType} {l : GateLaunch} (h : g.launch = some l) :
    l.gate = g := by
  cases g <;> cases h <;> rfl

lemma GateType.dispatch_iff {g : GateType} {l : GateLaunch} (h : g.launch = some l) :
    evaluateGate (g.id field d) = .ok (some l) ↔ l.InRange := by
  rw [evaluateGate_id field d h, ← GateLaunch.parsed_eq_self_iff]
  simp

/-- The id of a gate that has a kernel is parsed into the values of its fields exactly if these fit
a `u32`, and then no other gate is dispatched to the same kernel with the same parameters. -/
theorem GateType.dispatch_recovers {g : GateType} {l : GateLaunch} (h : g.launch = some l) :
    (evaluateGate (g.id field d) = .ok (some l) ↔ l.InRange) ∧
      ∀ (g' : GateType) (l' : GateLaunch), g'.launch = some l' → l.InRange → l'.InRange →
        evaluateGate (g.id field d) = evaluateGate (g'.id field d) → g = g' := by
  refine ⟨GateType.dispatch_iff field d h, fun g' l' h' hl hl' heq => ?_⟩
  rw [(GateType.dispatch_iff field d h).mpr hl, (GateType.dispatch_iff field d h').mpr hl'] at heq
  have hlaunch : l = l' := Option.some.inj (Except.ok.inj heq)
  rw [← GateLaunch.gate_of_launch h, hlaunch, GateLaunch.gate_of_launch h']

theorem GateType.dispatch_recovers_randomAccess :
    evaluateGate (GateType.id "GoldilocksField" 2 (.randomAccess 4 4 2)) =
        .ok (some ⟨.randomAccess, 4, 4, 2⟩) ∧
      evaluateGate (GateType.id "GoldilocksField" 2 (.randomAccess 4 4 2)) ≠
        evaluateGate (GateType.id "GoldilocksField" 2 (.randomAccess 4 2 4)) := by
  have hrecovers := GateType.dispatch_recovers "GoldilocksField" 2
    (show (GateType.randomAccess 4 4 2).launch = some ⟨.randomAccess, 4, 4, 2⟩ from rfl)
  refine ⟨hrecovers.1.mpr (by decide), fun heq => ?_⟩
  have hsame := hrecovers.2 (.randomAccess 4 2 4) ⟨.randomAccess, 4, 2, 4⟩ rfl (by decide)
    (by decide) heq
  cases hsame

/-- `2 ^ 32` operations are parsed as none. -/
theorem GateType.not_dispatch_recovers :
    (¬ ∀ (g : GateType) (l : GateLaunch), g.launch = some l →
      evaluateGate (g.id "GoldilocksField" 2) = .ok (some l)) ∧
    ¬ ∀ (g g' : GateType) (l l' : GateLaunch), g.launch = some l → g'.launch = some l' →
      evaluateGate (g.id "GoldilocksField" 2) = evaluateGate (g'.id "GoldilocksField" 2) →
        g = g' := by
  have hzero : ∀ n, wrapU32 n = 0 →
      evaluateGate (GateType.id "GoldilocksField" 2 (.arithmetic n)) =
        .ok (some ⟨.arithmetic, 0, 0, 0⟩) := by
    intro n hn
    have hlaunch : (GateType.arithmetic n).launch = some ⟨.arithmetic, n, 0, 0⟩ := rfl
    rw [evaluateGate_id "GoldilocksField" 2 hlaunch, GateLaunch.parsed, hn]
    rfl
  constructor
  · intro h
    have hparams := (h (.arithmetic (2 ^ 32)) _ rfl).symm.trans (hzero (2 ^ 32) rfl)
    cases hparams
  · intro h
    have hgates := h (.arithmetic (2 ^ 32)) (.arithmetic 0) _ _ rfl rfl
      ((hzero (2 ^ 32) rfl).trans (hzero 0 rfl).symm)
    cases hgates

end MegaZK
