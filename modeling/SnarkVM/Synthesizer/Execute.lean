import SnarkVM.Synthesizer.Basic
import Mathlib

/-!
`Process::verify_execution` (`synthesizer/src/process/execute.rs`). It checks the number of
transitions against the main function's number of calls, then pops the transitions from the end
of a copy of the execution. For each it checks the transition's own data, builds the public
inputs of its proof instance (appending, for a function with `k` function calls, the inputs and
output IDs of the last `k` transitions still in the queue) and files the instance under its
locator with the locator's verifying key. Last it checks the number of instances and hands the
groups to the proof check.

The loop body is split as the source orders it: `checkTransition` (lines 91-130), then
`transitionInstance` (lines 132-204), then `pushInstance` (lines 206-210). `instancesOf` lists
the instances the loop files, and `verifyTransitions_eq` says the loop is that list pushed in
order; the grouping results follow from it, and so does `verifyExecution_accepted`: every
transition of an accepted execution passed its turn of the loop.
-/

namespace SnarkVM.Synthesizer

/-- The verifier inputs gathered so far: per locator, its verifying key and one vector of public
inputs per instance. The source's `HashMap` is kept here in insertion order; nothing below
depends on the order of the groups. -/
abbrev VerifierInputs := List (Locator × Nat × List (List Nat))

/-- `verifier_inputs.entry(locator).or_insert((verifying_key, vec![])).1.push(inputs)`. -/
def pushInstance : VerifierInputs → Locator → Nat → List Nat → VerifierInputs
  | [], l, vk, inputs => [(l, vk, [inputs])]
  | (l', vk', is) :: rest, l, vk, inputs =>
    if l' = l then (l', vk', is ++ [inputs]) :: rest else (l', vk', is) :: pushInstance rest l vk inputs

/-- The checks on a transition's own data: its ID is its Merkle root, it has at most
`MAX_INPUTS` inputs and outputs, and each input and output verifies at its index. -/
def checkTransition (N : Console) (t : Transition) : Except String Unit := do
  let root ← N.transitionRoot t
  ensure (t.id = root) "The transition ID is incorrect"
  ensure (t.inputs.length ≤ N.MAX_INPUTS) "Transition exceeded maximum number of inputs"
  ensure (t.outputs.length ≤ N.MAX_INPUTS) "Transition exceeded maximum number of outputs"
  let functionId ← N.functionId t.programId t.functionName
  if t.inputs.enum.any fun (index, input) => !N.inputVerify input functionId t.tcm index then
    throw "Failed to verify a transition input"
  let numInputs := t.inputs.length
  if t.outputs.enum.any fun (index, output) =>
      !N.outputVerify output functionId t.tcm (numInputs + index) then
    throw "Failed to verify a transition output"

/-- The loop counting the function calls of a function body. -/
def countFunctionCalls (stack : Stack) : List Instruction → Except String Nat
  | [] => .ok 0
  | .call target :: rest => do
    let isFunctionCall ← stack.isFunctionCall target
    let n ← countFunctionCalls stack rest
    pure (if isFunctionCall then n + 1 else n)
  | .other :: rest => countFunctionCalls stack rest

/-- `queue.transitions().rev().take(num_function_calls).rev()`, for the queue given with its last
transition first. -/
def lastTransitions (rest : List Transition) (k : Nat) : List Transition := (rest.take k).reverse

/-- What a callee adds to its caller's public inputs: its inputs' verifier inputs, then its
output IDs. -/
def calleeInputs (t : Transition) : List Nat := t.inputs.flatMap Input.verifierInputs ++ t.outputIds

/-- The finalize checks, and the checksum of the finalize inputs appended last. -/
def finalizeInputs (N : Console) (function : Function) (t : Transition) (inputs : List Nat) :
    Except String (List Nat) :=
  match function.finalize with
  | none => .ok inputs
  | some scope =>
    match t.finalize with
    | some finalize => do
      ensure (finalize.length ≤ N.MAX_INPUTS) "Transition exceeds maximum inputs for finalize"
      ensure (finalize.length = scope.numOperands) "The number of inputs for finalize is incorrect"
      ensure (finalize.length = scope.numInputs) "The number of inputs for finalize is incorrect"
      let checksum ← N.finalizeChecksum finalize
      pure (inputs ++ [checksum])
    | none => .error "The transition is missing inputs for \x27finalize\x27"

/-- The instance of a transition: the locator it is filed under, the verifying key, and the public
inputs `[1, tpk_x, tpk_y, tcm]`, the inputs' verifier inputs, the callees' inputs and output IDs,
the outputs' verifier inputs and the finalize checksum. `rest` is the queue after the pop. -/
def transitionInstance (N : Console) (P : Process) (rest : List Transition) (t : Transition) :
    Except String (Locator × Nat × List Nat) := do
  let inputs := [1, t.tpk.1, t.tpk.2, t.tcm] ++ t.inputs.flatMap Input.verifierInputs
  let stack ← P.getStack t.programId
  let function ← stack.getFunction t.functionName
  let numFunctionCalls ← countFunctionCalls stack function.instructions
  let inputs := if 0 < numFunctionCalls then
      inputs ++ (lastTransitions rest numFunctionCalls).flatMap calleeInputs
    else inputs
  let inputs := inputs ++ t.outputs.flatMap Output.verifierInputs
  let inputs ← finalizeInputs N function t inputs
  let verifyingKey ← P.getVerifyingKey stack.programId function.name
  pure (⟨stack.programId, function.name⟩, verifyingKey, inputs)

/-- One turn of the loop on the popped transition `t`. -/
def verifyTransition (N : Console) (P : Process) (rest : List Transition) (t : Transition)
    (verifierInputs : VerifierInputs) : Except String VerifierInputs := do
  checkTransition N t
  let (locator, verifyingKey, inputs) ← transitionInstance N P rest t
  pure (pushInstance verifierInputs locator verifyingKey inputs)

/-- `while let Ok(transition) = queue.pop()`, for the queue given with its last transition first. -/
def verifyTransitions (N : Console) (P : Process) :
    List Transition → VerifierInputs → Except String VerifierInputs
  | [], verifierInputs => .ok verifierInputs
  | t :: rest, verifierInputs => do
    let verifierInputs ← verifyTransition N P rest t verifierInputs
    verifyTransitions N P rest verifierInputs

/-- Everything `verify_execution` does before the proof check: the locator of the main function
and the verifier inputs it passes to `Trace::verify_execution_proof`. -/
def verifierInputsOf (N : Console) (P : Process) (execution : Execution) :
    Except String (String × VerifierInputs) := do
  ensure (execution.transitions ≠ []) "There are no transitions in the execution"
  let transition ← execution.peek
  let stack ← P.getStack transition.programId
  let numberOfCalls ← stack.numberOfCalls transition.functionName
  let len := execution.transitions.length
  ensure (numberOfCalls = len)
    s!"The number of transitions in the execution is incorrect. Expected {numberOfCalls}, but found {len}"
  let locator := Locator.toString ⟨transition.programId, transition.functionName⟩
  let verifierInputs ← verifyTransitions N P execution.transitions.reverse []
  let numInstances := (verifierInputs.map fun (_, _, inputs) => inputs.length).sum
  ensure (numInstances = execution.transitions.length) "The number of verifier instances is incorrect"
  pure (locator, verifierInputs)

/-- `Process::verify_execution`. -/
def verifyExecution (N : Console) (P : Process) (execution : Execution) : Except String Unit := do
  let (locator, verifierInputs) ← verifierInputsOf N P execution
  N.verifyExecutionProof locator (verifierInputs.map fun (_, vk, inputs) => (vk, inputs)) execution

/-- The instances the loop files, in the order it files them (the spec of the loop). -/
def instancesOf (N : Console) (P : Process) :
    List Transition → Except String (List (Locator × Nat × List Nat))
  | [] => .ok []
  | t :: rest => do
    checkTransition N t
    let inst ← transitionInstance N P rest t
    let insts ← instancesOf N P rest
    pure (inst :: insts)

/-- Pushing a list of instances one after another. -/
def pushAll (verifierInputs : VerifierInputs) (insts : List (Locator × Nat × List Nat)) :
    VerifierInputs :=
  insts.foldl (fun vi inst => pushInstance vi inst.1 inst.2.1 inst.2.2) verifierInputs

/-! ### The loop files the instances one after another -/

section Loop

variable (N : Console) (P : Process)

/-- **The loop is its instances pushed in order**: `verifyTransitions` succeeds exactly when
every transition's checks and instance succeed, and then pushes the instances in the order of
the queue. -/
theorem verifyTransitions_eq : ∀ (q : List Transition) (vi : VerifierInputs),
    verifyTransitions N P q vi = (instancesOf N P q).map (pushAll vi)
  | [], _ => rfl
  | t :: rest, vi => by
    simp only [verifyTransitions, instancesOf, verifyTransition]
    cases checkTransition N t with
    | error e => rfl
    | ok u =>
      cases transitionInstance N P rest t with
      | error e => rfl
      | ok inst =>
        simp only [except_ok_bind, except_pure, verifyTransitions_eq rest]
        cases instancesOf N P rest <;> rfl

/-- An instance is filed under its transition's locator, with that locator's verifying key. -/
theorem transitionInstance_eq_ok {rest : List Transition} {t : Transition}
    {inst : Locator × Nat × List Nat} (h : transitionInstance N P rest t = .ok inst) :
    inst.1 = t.locator ∧ P.getVerifyingKey t.programId t.functionName = .ok inst.2.1 := by
  obtain ⟨stack, hstack, h⟩ := except_bind_eq_ok.1 h
  obtain ⟨function, hfunction, h⟩ := except_bind_eq_ok.1 h
  obtain ⟨k, -, h⟩ := except_bind_eq_ok.1 h
  obtain ⟨inputs, -, h⟩ := except_bind_eq_ok.1 h
  obtain ⟨vk, hvk, h⟩ := except_bind_eq_ok.1 h
  cases h
  rw [getStack_programId hstack, getFunction_name hfunction] at hvk
  exact ⟨by rw [getStack_programId hstack, getFunction_name hfunction]; rfl, hvk⟩

/-- The public inputs of an instance: the transition's own, the callee inputs of the last `k`
transitions of the queue where its function makes `k` function calls, its outputs', and the
finalize checksum. -/
theorem transitionInstance_inputs {rest : List Transition} {t : Transition} {stack : Stack}
    {function : Function} {k : Nat} {inst : Locator × Nat × List Nat}
    (hstack : P.getStack t.programId = .ok stack)
    (hfun : stack.getFunction t.functionName = .ok function)
    (hcalls : countFunctionCalls stack function.instructions = .ok k)
    (h : transitionInstance N P rest t = .ok inst) :
    finalizeInputs N function t ([1, t.tpk.1, t.tpk.2, t.tcm] ++
      t.inputs.flatMap Input.verifierInputs ++ (lastTransitions rest k).flatMap calleeInputs ++
      t.outputs.flatMap Output.verifierInputs) = .ok inst.2.2 := by
  simp only [transitionInstance, hstack, hfun, hcalls, except_ok_bind] at h
  obtain ⟨inputs, hinputs, h⟩ := except_bind_eq_ok.1 h
  obtain ⟨vk, -, h⟩ := except_bind_eq_ok.1 h
  cases h
  rcases Nat.eq_zero_or_pos k with rfl | hk
  · simpa [lastTransitions] using hinputs
  · simpa [hk] using hinputs

theorem instancesOf_eq_ok : ∀ {q : List Transition} {insts : List (Locator × Nat × List Nat)},
    instancesOf N P q = .ok insts →
      insts.map (·.1) = q.map Transition.locator ∧
        ∀ inst ∈ insts, P.getVerifyingKey inst.1.programId inst.1.resource = .ok inst.2.1
  | [], _, h => by cases h; simp
  | t :: rest, insts, h => by
    obtain ⟨u, -, h⟩ := except_bind_eq_ok.1 h
    obtain ⟨inst, hinst, h⟩ := except_bind_eq_ok.1 h
    obtain ⟨insts', hrest, h⟩ := except_bind_eq_ok.1 h
    cases h
    obtain ⟨hl, hvk⟩ := transitionInstance_eq_ok N P hinst
    obtain ⟨ih1, ih2⟩ := instancesOf_eq_ok hrest
    refine ⟨by simp [hl, ih1], ?_⟩
    intro i hi
    rcases List.mem_cons.1 hi with rfl | hi
    · rw [hl]; exact hvk
    · exact ih2 i hi

/-- The instance of the transition after `pre` in the queue is built with `pre` as the rest of
the queue. -/
theorem instancesOf_append_cons : ∀ {pre : List Transition} {t : Transition} {post : List Transition}
    {insts : List (Locator × Nat × List Nat)}, instancesOf N P (pre ++ t :: post) = .ok insts →
      ∃ inst ∈ insts, transitionInstance N P post t = .ok inst
  | [], t, post, insts, h => by
    obtain ⟨u, -, h⟩ := except_bind_eq_ok.1 h
    obtain ⟨inst, hinst, h⟩ := except_bind_eq_ok.1 h
    obtain ⟨insts', -, h⟩ := except_bind_eq_ok.1 h
    cases h
    exact ⟨inst, List.mem_cons_self _ _, hinst⟩
  | x :: pre, t, post, insts, h => by
    obtain ⟨u, -, h⟩ := except_bind_eq_ok.1 h
    obtain ⟨inst, -, h⟩ := except_bind_eq_ok.1 h
    obtain ⟨insts', hrest, h⟩ := except_bind_eq_ok.1 h
    cases h
    obtain ⟨i, hi, hi'⟩ := instancesOf_append_cons hrest
    exact ⟨i, List.mem_cons_of_mem _ hi, hi'⟩

end Loop

/-! ### Grouping by locator -/

theorem lookup_cons_of_ne {β : Type} {l l0 : Locator} {b : β} {es : List (Locator × β)}
    (h : l ≠ l0) : ((l0, b) :: es).lookup l = es.lookup l := by
  simp [List.lookup, beq_false_of_ne h]

@[simp] theorem lookup_pushInstance (vi : VerifierInputs) (l l' : Locator) (vk : Nat) (v : List Nat) :
    (pushInstance vi l vk v).lookup l' =
      if l' = l then some (match vi.lookup l with
        | some (vk0, vs) => (vk0, vs ++ [v])
        | none => (vk, [v]))
      else vi.lookup l' := by
  induction vi with
  | nil => by_cases h : l' = l <;> simp [pushInstance, h, lookup_cons_of_ne]
  | cons e vi ih =>
    obtain ⟨l0, vk0, vs0⟩ := e
    by_cases h0 : l0 = l
    · subst h0
      by_cases h : l' = l0 <;> simp [pushInstance, h, lookup_cons_of_ne]
    · by_cases h : l' = l0
      · subst h
        simp [pushInstance, h0]
      · simp only [pushInstance, h0, if_false, lookup_cons_of_ne h, ih, lookup_cons_of_ne (Ne.symm h0)]

theorem keys_pushInstance (vi : VerifierInputs) (l : Locator) (vk : Nat) (v : List Nat) :
    (pushInstance vi l vk v).map (·.1) =
      if l ∈ vi.map (·.1) then vi.map (·.1) else vi.map (·.1) ++ [l] := by
  induction vi with
  | nil => simp [pushInstance]
  | cons e vi ih =>
    obtain ⟨l0, vk0, vs0⟩ := e
    by_cases h0 : l0 = l
    · subst h0
      rw [List.map_cons, if_pos (List.mem_cons_self _ _)]
      simp only [pushInstance, eq_self_iff_true, if_true, List.map_cons]
    · by_cases h : l ∈ vi.map (·.1) <;> simp [pushInstance, h0, ih, h, Ne.symm h0]

theorem sum_pushInstance (vi : VerifierInputs) (l : Locator) (vk : Nat) (v : List Nat) :
    ((pushInstance vi l vk v).map (·.2.2.length)).sum = (vi.map (·.2.2.length)).sum + 1 := by
  induction vi with
  | nil => simp [pushInstance]
  | cons e vi ih =>
    obtain ⟨l0, vk0, vs0⟩ := e
    by_cases h0 : l0 = l <;> simp [pushInstance, h0, ih] <;> omega

theorem pushAll_append_singleton (vi : VerifierInputs) (insts : List (Locator × Nat × List Nat))
    (x : Locator × Nat × List Nat) :
    pushAll vi (insts ++ [x]) = pushInstance (pushAll vi insts) x.1 x.2.1 x.2.2 :=
  List.foldl_append _ _ _ _

theorem sum_pushAll : ∀ (vi : VerifierInputs) (insts : List (Locator × Nat × List Nat)),
    ((pushAll vi insts).map (·.2.2.length)).sum = (vi.map (·.2.2.length)).sum + insts.length
  | _, [] => rfl
  | vi, x :: insts => by
    rw [pushAll, List.foldl_cons, ← pushAll, sum_pushAll, sum_pushInstance, List.length_cons]
    omega

theorem keys_pushAll (insts : List (Locator × Nat × List Nat)) :
    ((pushAll [] insts).map (·.1)).Nodup ∧
      ∀ l, l ∈ (pushAll [] insts).map (·.1) ↔ l ∈ insts.map (·.1) := by
  induction insts using List.reverseRecOn with
  | nil => simp [pushAll]
  | append_singleton insts x ih =>
    rw [pushAll_append_singleton, keys_pushInstance]
    split_ifs with hx
    · refine ⟨ih.1, fun l => ?_⟩
      rw [ih.2, List.map_append, List.mem_append]
      simp only [List.map_cons, List.map_nil, List.mem_singleton]
      constructor
      · exact Or.inl
      · rintro (h | rfl)
        · exact h
        · exact (ih.2 _).1 hx
    · refine ⟨List.Nodup.append ih.1 (List.nodup_singleton _) (List.disjoint_singleton.2 hx),
        fun l => ?_⟩
      simp only [List.map_append, List.mem_append, ih.2, List.map_cons, List.map_nil]

/-- The group of a locator after pushing `insts` from nothing: one vector per instance with that
locator, in order, under the verifying key of one of them. -/
theorem lookup_pushAll (l : Locator) (insts : List (Locator × Nat × List Nat)) :
    ((pushAll [] insts).lookup l).map (·.2) =
        (if l ∈ insts.map (·.1) then some ((insts.filter (·.1 = l)).map (·.2.2)) else none) ∧
      ∀ vk vs, (pushAll [] insts).lookup l = some (vk, vs) → ∃ v, (l, vk, v) ∈ insts := by
  induction insts using List.reverseRecOn with
  | nil => simp [pushAll]
  | append_singleton insts x ih =>
    obtain ⟨lx, vkx, vx⟩ := x
    rw [pushAll_append_singleton, lookup_pushInstance]
    dsimp only
    by_cases hl : l = lx
    · subst hl
      rw [if_pos rfl]
      cases hprev : (pushAll [] insts).lookup l with
      | none =>
        have hnot : l ∉ insts.map (·.1) := by
          intro hmem; have := ih.1; rw [hprev, if_pos hmem] at this; cases this
        have hfilter : insts.filter (·.1 = l) = [] :=
          List.filter_eq_nil_iff.2 fun a ha h => hnot (List.mem_map.2 ⟨a, ha, by simpa using h⟩)
        refine ⟨?_, fun vk vs h => ?_⟩
        · rw [if_pos (List.mem_map.2 ⟨_, List.mem_append_right _ (List.mem_singleton_self _), rfl⟩),
            List.filter_append, hfilter]
          simp
        obtain ⟨rfl, rfl⟩ := Prod.mk.inj (Option.some.inj h)
        exact ⟨vx, by simp⟩
      | some p =>
        obtain ⟨vk0, vs0⟩ := p
        have hmem : l ∈ insts.map (·.1) := by
          by_contra hmem; have := ih.1; rw [hprev, if_neg hmem] at this; cases this
        have hvs : vs0 = (insts.filter (·.1 = l)).map (·.2.2) := by
          have := ih.1; rw [hprev, if_pos hmem] at this; simpa using this
        refine ⟨?_, fun vk vs h => ?_⟩
        · rw [if_pos (List.mem_map.2 ⟨_, List.mem_append_right _ (List.mem_singleton_self _), rfl⟩),
            List.filter_append, List.map_append, ← hvs]
          simp
        obtain ⟨rfl, rfl⟩ := Prod.mk.inj (Option.some.inj h)
        obtain ⟨v, hv⟩ := ih.2 vk0 vs0 hprev
        exact ⟨v, List.mem_append_left _ hv⟩
    · rw [if_neg hl]
      refine ⟨?_, fun vk vs h => ?_⟩
      · have hkey : l ∈ (insts ++ [(lx, vkx, vx)]).map (·.1) ↔ l ∈ insts.map (·.1) := by simp [hl]
        have hfilt : (insts ++ [(lx, vkx, vx)]).filter (·.1 = l) = insts.filter (·.1 = l) := by
          simp [List.filter_append, Ne.symm hl]
        rw [ih.1, hfilt]
        exact if_congr hkey.symm rfl rfl
      · obtain ⟨v, hv⟩ := ih.2 vk vs h
        exact ⟨v, List.mem_append_left _ hv⟩

/-- When `verify_execution` reaches the proof check, the execution's main transition is of a
deployed program whose function makes as many calls as there are transitions, and the loop
returned the verifier inputs. -/
theorem verifierInputsOf_spec {N : Console} {P : Process} {E : Execution} {locator : String}
    {vi : VerifierInputs} (h : verifierInputsOf N P E = .ok (locator, vi)) :
    (∃ main stack, E.peek = .ok main ∧ P.getStack main.programId = .ok stack ∧
      stack.numberOfCalls main.functionName = .ok E.transitions.length) ∧
    verifyTransitions N P E.transitions.reverse [] = .ok vi := by
  obtain ⟨_, -, h⟩ := except_bind_eq_ok.1 h
  obtain ⟨main, hmain, h⟩ := except_bind_eq_ok.1 h
  obtain ⟨stack, hstack, h⟩ := except_bind_eq_ok.1 h
  obtain ⟨n, hn, h⟩ := except_bind_eq_ok.1 h
  obtain ⟨_, heq, h⟩ := except_bind_eq_ok.1 h
  obtain ⟨vi', hvi, h⟩ := except_bind_eq_ok.1 h
  obtain ⟨_, -, h⟩ := except_bind_eq_ok.1 h
  cases h
  exact ⟨⟨main, stack, hmain, hstack, ensure_eq_ok.1 heq ▸ hn⟩, hvi⟩

theorem verifierInputsOf_eq_ok {N : Console} {P : Process} {E : Execution} {locator : String}
    {vi : VerifierInputs} (h : verifierInputsOf N P E = .ok (locator, vi)) :
    verifyTransitions N P E.transitions.reverse [] = .ok vi :=
  (verifierInputsOf_spec h).2

/-- **The verifier inputs are the instances grouped by locator.** Whenever the loop succeeds, the
number of instances is the number of transitions, so the instance-count check never fails. And
when `verify_execution` reaches the proof check, the loop filed one instance per transition, under
the transition's own locator, in reverse execution order; the groups it passes have distinct
locators, those of the execution's transitions, and the group of a locator holds its verifying key
and the vectors of exactly its transitions' instances, in that order. -/
theorem verifyExecution_verifierInputs (N : Console) (P : Process) (E : Execution) :
    (∀ vi, verifyTransitions N P E.transitions.reverse [] = .ok vi →
      (vi.map fun (_, _, inputs) => inputs.length).sum = E.transitions.length) ∧
    ∀ locator vi, verifierInputsOf N P E = .ok (locator, vi) →
      ∃ insts, instancesOf N P E.transitions.reverse = .ok insts ∧
        insts.map (·.1) = E.transitions.reverse.map Transition.locator ∧
        (vi.map (·.1)).Nodup ∧
        (∀ l, l ∈ vi.map (·.1) ↔ ∃ t ∈ E.transitions, t.locator = l) ∧
        ∀ l vk vs, vi.lookup l = some (vk, vs) →
          P.getVerifyingKey l.programId l.resource = .ok vk ∧
            vs = (insts.filter (·.1 = l)).map (·.2.2) := by
  have hloop : ∀ vi, verifyTransitions N P E.transitions.reverse [] = .ok vi →
      ∃ insts, instancesOf N P E.transitions.reverse = .ok insts ∧ vi = pushAll [] insts ∧
        insts.map (·.1) = E.transitions.reverse.map Transition.locator ∧
        ∀ inst ∈ insts, P.getVerifyingKey inst.1.programId inst.1.resource = .ok inst.2.1 := by
    intro vi h
    rw [verifyTransitions_eq] at h
    cases hi : instancesOf N P E.transitions.reverse with
    | error e => rw [hi] at h; cases h
    | ok insts =>
      rw [hi] at h
      cases h
      exact ⟨insts, rfl, rfl, instancesOf_eq_ok N P hi⟩
  refine ⟨fun vi h => ?_, fun locator vi h => ?_⟩
  · obtain ⟨insts, -, rfl, hkeys, -⟩ := hloop vi h
    have hlen := congrArg List.length hkeys
    simp only [List.length_map, List.length_reverse] at hlen
    have := sum_pushAll [] insts
    simp only [List.map_nil, List.sum_nil, Nat.zero_add] at this
    rw [← hlen, ← this]
  · obtain ⟨insts, hi, rfl, hkeys, hvk⟩ := hloop vi (verifierInputsOf_eq_ok h)
    obtain ⟨hnodup, hmem⟩ := keys_pushAll insts
    refine ⟨insts, hi, hkeys, hnodup, fun l => by simp [hmem, hkeys], fun l vk vs hl => ?_⟩
    obtain ⟨hvs, hvk'⟩ := lookup_pushAll l insts
    obtain ⟨v, hv⟩ := hvk' vk vs hl
    refine ⟨hvk _ hv, ?_⟩
    rw [hl, if_pos (List.mem_map.2 ⟨_, hv, rfl⟩)] at hvs
    exact Option.some.inj hvs

/-! ### Call trees and the callees the loop appends -/

/-- A call tree: a transition and the call trees of its function calls, in call order. -/
inductive CallTree
  | node (transition : Transition) (callees : List CallTree)

/-- The transition at the root of a call tree. -/
def CallTree.root : CallTree → Transition
  | .node t _ => t

/-- The direct callees of the root. -/
def CallTree.callees : CallTree → List CallTree
  | .node _ cs => cs

mutual
/-- The transitions of a call tree, each callee before its caller: the order in which the trace
of `Process::execute` records them. -/
def CallTree.postOrder : CallTree → List Transition
  | .node t cs => CallTree.postOrderList cs ++ [t]

/-- The post-orders of call trees, one after another. -/
def CallTree.postOrderList : List CallTree → List Transition
  | [] => []
  | c :: cs => c.postOrder ++ CallTree.postOrderList cs
end

namespace CallTree

theorem postOrder_eq (c : CallTree) : c.postOrder = postOrderList c.callees ++ [c.root] := by
  cases c; rfl

theorem length_le_postOrderList : ∀ cs : List CallTree, cs.length ≤ (postOrderList cs).length
  | [] => le_rfl
  | c :: cs => by
    have := length_le_postOrderList cs
    simp only [postOrderList, postOrder_eq c, List.length_append, List.length_cons, List.length_nil]
    omega

theorem length_postOrderList_eq_iff : ∀ cs : List CallTree,
    (postOrderList cs).length = cs.length ↔ ∀ c ∈ cs, c.callees = []
  | [] => by simp [postOrderList]
  | c :: cs => by
    have h1 := length_le_postOrderList c.callees
    have h2 := length_le_postOrderList cs
    have hc : (postOrderList c.callees).length = 0 ↔ c.callees = [] := by
      constructor
      · intro h; exact List.length_eq_zero.1 (by omega)
      · intro h; rw [h]; rfl
    simp only [postOrderList, postOrder_eq c, List.length_append, List.length_cons,
      List.length_nil, List.forall_mem_cons, ← length_postOrderList_eq_iff cs, ← hc]
    omega

theorem postOrderList_of_leaves : ∀ {cs : List CallTree}, (∀ c ∈ cs, c.callees = []) →
    postOrderList cs = cs.map root
  | [], _ => rfl
  | c :: cs, h => by
    rw [postOrderList, postOrder_eq c, h c (List.mem_cons_self _ _),
      postOrderList_of_leaves fun c' hc' => h c' (List.mem_cons_of_mem _ hc')]
    rfl

end CallTree

/-- The transitions the loop appends for a caller are the last ones of the queue: with `pre`
before the callees' post-orders `xs`, and no more callees than `xs` has transitions. -/
theorem lastTransitions_append {pre xs : List Transition} {k : Nat} (hk : k ≤ xs.length) :
    lastTransitions (pre ++ xs).reverse k = xs.drop (xs.length - k) := by
  rw [lastTransitions, List.take_reverse, List.reverse_reverse, List.length_append,
    show pre.length + xs.length - k = pre.length + (xs.length - k) by omega, List.drop_append]

/-- **Which transitions the loop appends for a caller.** Take a caller `t` whose call tree's
post-order follows `pre` in the execution, and whose function makes as many function calls as it
has callees. When the loop pops `t`, the transitions it appends are `t`'s callees, in call order,
exactly when every callee after the first makes no calls itself; otherwise it appends transitions
of the callees' own calls in their place. -/
theorem lastTransitions_callees_iff {pre : List Transition} {t : Transition} {cs : List CallTree}
    (hnd : (pre ++ (CallTree.node t cs).postOrder).Nodup) :
    lastTransitions (pre ++ CallTree.postOrderList cs).reverse cs.length = cs.map CallTree.root ↔
      ∀ c ∈ cs.tail, c.callees = [] := by
  rw [lastTransitions_append (CallTree.length_le_postOrderList cs)]
  cases cs with
  | nil => simp [CallTree.postOrderList]
  | cons c cs =>
    have hY := CallTree.length_le_postOrderList cs
    have hX := CallTree.length_le_postOrderList c.callees
    have hnd' : (c.postOrder ++ CallTree.postOrderList cs).Nodup := by
      have := (List.nodup_append.1 hnd).2.1
      simpa [CallTree.postOrder, CallTree.postOrderList] using (List.nodup_append.1 this).1
    have hroot : c.root ∉ CallTree.postOrderList cs := fun h =>
      (List.nodup_append.1 hnd').2.2 (by simp [CallTree.postOrder_eq c]) h
    -- the drop starts at the root of the first callee, or inside the later callees' trees
    have hdrop : (CallTree.postOrderList (c :: cs)).drop
        ((CallTree.postOrderList (c :: cs)).length - (c :: cs).length) =
        (c.root :: CallTree.postOrderList cs).drop
          ((CallTree.postOrderList cs).length - cs.length) := by
      have hlen : (CallTree.postOrderList (c :: cs)).length - (c :: cs).length =
          (CallTree.postOrderList c.callees).length + ((CallTree.postOrderList cs).length - cs.length) := by
        simp only [CallTree.postOrderList, CallTree.postOrder_eq c, List.length_append,
          List.length_cons, List.length_nil]
        omega
      rw [hlen, CallTree.postOrderList, CallTree.postOrder_eq c, List.append_assoc,
        List.singleton_append, List.drop_append]
    rw [hdrop, List.tail_cons, ← CallTree.length_postOrderList_eq_iff]
    constructor
    · intro h
      by_contra hne
      obtain ⟨d, hd⟩ : ∃ d, (CallTree.postOrderList cs).length - cs.length = d + 1 :=
        ⟨_, (Nat.succ_pred_eq_of_pos (by omega)).symm⟩
      rw [hd, List.drop_succ_cons] at h
      exact hroot (List.mem_of_mem_drop (h ▸ List.mem_map_of_mem _ (List.mem_cons_self c cs) :
        c.root ∈ (CallTree.postOrderList cs).drop d))
    · intro h
      rw [h, Nat.sub_self, List.drop_zero, List.map_cons,
        CallTree.postOrderList_of_leaves ((CallTree.length_postOrderList_eq_iff cs).1 h)]

/-- **The callees the loop appends, over a whole run.** In an execution with distinct transitions
that holds the post-order of `t`'s call tree after `pre`, where `t`'s function makes one function
call per callee, the loop files an instance of `t` whose public inputs carry, after `t`'s own
inputs, the inputs and output IDs of the last `cs.length` transitions before `t`; and those
transitions are `t`'s callees, in call order, exactly when every callee after the first makes no
calls itself. -/
theorem verifyExecution_callees_iff {N : Console} {P : Process} {pre post : List Transition}
    {t : Transition} {cs : List CallTree} {stack : Stack} {function : Function}
    {insts : List (Locator × Nat × List Nat)}
    (hnd : (pre ++ (CallTree.node t cs).postOrder ++ post).Nodup)
    (hstack : P.getStack t.programId = .ok stack)
    (hfun : stack.getFunction t.functionName = .ok function)
    (hcalls : countFunctionCalls stack function.instructions = .ok cs.length)
    (h : instancesOf N P (pre ++ (CallTree.node t cs).postOrder ++ post).reverse = .ok insts) :
    (∃ inst ∈ insts, inst.1 = t.locator ∧ finalizeInputs N function t
        ([1, t.tpk.1, t.tpk.2, t.tcm] ++ t.inputs.flatMap Input.verifierInputs ++
          (lastTransitions (pre ++ CallTree.postOrderList cs).reverse cs.length).flatMap
            calleeInputs ++
          t.outputs.flatMap Output.verifierInputs) = .ok inst.2.2) ∧
      (lastTransitions (pre ++ CallTree.postOrderList cs).reverse cs.length = cs.map CallTree.root ↔
        ∀ c ∈ cs.tail, c.callees = []) := by
  have hq : (pre ++ (CallTree.node t cs).postOrder ++ post).reverse =
      post.reverse ++ t :: (pre ++ CallTree.postOrderList cs).reverse := by
    simp [CallTree.postOrder]
  rw [hq] at h
  obtain ⟨inst, hmem, hinst⟩ := instancesOf_append_cons N P h
  exact ⟨⟨inst, hmem, (transitionInstance_eq_ok N P hinst).1,
    transitionInstance_inputs N P hstack hfun hcalls hinst⟩,
    lastTransitions_callees_iff (List.nodup_append.1 hnd).1⟩

/-! ### A program with nested calls

`main` calls `a` and then `b`, and `b` calls `c`. Every transition's ID is its root and every input
and output verifies, so the loop reaches the instances and the proof check.
-/

/-- The sample program's ID, `token.aleo`. -/
def sampleProgramId : ProgramID := ⟨"token", "aleo"⟩

/-- A function of the sample program with one `u64` input and output, calling `calls`. -/
def sampleFunction (name : String) (calls : List String) : Function :=
  ⟨name, ["u64"], ["u64"], calls.map Instruction.call, none⟩

/-- The stack of the sample program. -/
def sampleStack : Stack where
  programId := sampleProgramId
  functions := [sampleFunction "main" ["a", "b"], sampleFunction "a" [], sampleFunction "b" ["c"],
    sampleFunction "c" []]
  verifyingKeys := [("main", 10), ("a", 11), ("b", 12), ("c", 13)]
  numberOfCalls name := if name = "main" then .ok 4 else if name = "b" then .ok 2 else .ok 1
  isFunctionCall _ := .ok true

/-- A process with the sample program. -/
def sampleProcess : Process where
  «stacks» := [(sampleProgramId, sampleStack)]
  stacks_programId := by simp [sampleStack]

/-- A network whose transitions' IDs are their roots and whose inputs and outputs all verify. -/
def sampleConsole (verifyProof : String → List (Nat × List (List Nat)) → Execution → Except String Unit) :
    Console where
  MAX_INPUTS := 16
  transitionRoot t := .ok t.id
  functionId _ _ := .ok 0
  inputVerify _ _ _ _ := true
  outputVerify _ _ _ _ := true
  finalizeChecksum _ := .ok 0
  verifyExecutionProof := verifyProof

/-- A transition of the sample program with one public input and one public output. -/
def sampleTransition (id : Nat) (name : String) : Transition :=
  ⟨id, sampleProgramId, name, [.public (id + 100) none], [.public (id + 200) none],
    (id + 300, id + 400), id + 500, none⟩

/-- The call trees of `a`, and of `b` calling `c`. -/
def sampleCallees : List CallTree :=
  [.node (sampleTransition 2 "a") [], .node (sampleTransition 3 "b") [.node (sampleTransition 4 "c") []]]

/-- `main` calling `a` and `b`, and `b` calling `c`. -/
def sampleCallTree : CallTree := .node (sampleTransition 1 "main") sampleCallees

/-- With `main` calling `a` and `b`, and `b` calling `c`, the trace records `a, c, b, main`. The
first instance the loop files is `main`'s, and the callees' inputs and output IDs it appends are
those of `c` and `b`, where the callees of `main` are `a` and `b`. -/
theorem verifyExecution_nested_callees :
    sampleCallTree.postOrder =
      [sampleTransition 2 "a", sampleTransition 4 "c", sampleTransition 3 "b",
        sampleTransition 1 "main"] ∧
    ∃ insts, instancesOf (sampleConsole fun _ _ _ => .ok ()) sampleProcess
        [sampleTransition 2 "a", sampleTransition 4 "c", sampleTransition 3 "b",
          sampleTransition 1 "main"].reverse = .ok insts ∧
      insts.head? = some ((sampleTransition 1 "main").locator, 10,
        [1, 301, 401, 501] ++ (sampleTransition 1 "main").inputs.flatMap Input.verifierInputs ++
          [sampleTransition 4 "c", sampleTransition 3 "b"].flatMap calleeInputs ++
          (sampleTransition 1 "main").outputs.flatMap Output.verifierInputs) :=
  ⟨rfl, _, rfl, rfl⟩

theorem verifyExecution_callees_iff_sample : ∃ insts,
    ([] ++ (CallTree.node (sampleTransition 1 "main") sampleCallees).postOrder ++ []).Nodup ∧
    sampleProcess.getStack (sampleTransition 1 "main").programId = .ok sampleStack ∧
    sampleStack.getFunction (sampleTransition 1 "main").functionName =
      .ok (sampleFunction "main" ["a", "b"]) ∧
    countFunctionCalls sampleStack (sampleFunction "main" ["a", "b"]).instructions =
      .ok sampleCallees.length ∧
    instancesOf (sampleConsole fun _ _ _ => .ok ()) sampleProcess
      ([] ++ (CallTree.node (sampleTransition 1 "main") sampleCallees).postOrder ++ []).reverse =
        .ok insts ∧
    (∃ inst ∈ insts, inst.1 = (sampleTransition 1 "main").locator ∧
      finalizeInputs (sampleConsole fun _ _ _ => .ok ()) (sampleFunction "main" ["a", "b"])
        (sampleTransition 1 "main")
        ([1, (sampleTransition 1 "main").tpk.1, (sampleTransition 1 "main").tpk.2,
            (sampleTransition 1 "main").tcm] ++
          (sampleTransition 1 "main").inputs.flatMap Input.verifierInputs ++
          (lastTransitions ([] ++ CallTree.postOrderList sampleCallees).reverse
            sampleCallees.length).flatMap calleeInputs ++
          (sampleTransition 1 "main").outputs.flatMap Output.verifierInputs) = .ok inst.2.2) ∧
    (lastTransitions ([] ++ CallTree.postOrderList sampleCallees).reverse sampleCallees.length =
        sampleCallees.map CallTree.root ↔ ∀ c ∈ sampleCallees.tail, c.callees = []) :=
  ⟨_, by decide, rfl, rfl, rfl, rfl,
    @verifyExecution_callees_iff (sampleConsole fun _ _ _ => .ok ()) sampleProcess [] [] _ _
      sampleStack (sampleFunction "main" ["a", "b"]) _ (by decide) rfl rfl rfl rfl⟩

/-- The transition of `a` with an extra output `ExternalRecord(0)` appended, and its ID the root
of the new outputs. -/
def extraOutputTransition : Transition :=
  { sampleTransition 2 "a" with outputs := (sampleTransition 2 "a").outputs ++ [.externalRecord 0] }

/-- `a` declares one output, and its transition carries two. Every check before the proof check
passes: `verify_execution` returns what the proof check returns on the public inputs with the
extra `0` at the end. -/
theorem verifyExecution_extra_output
    (verifyProof : String → List (Nat × List (List Nat)) → Execution → Except String Unit) :
    extraOutputTransition.outputs.length ≠ (sampleFunction "a" []).outputs.length ∧
    verifyExecution (sampleConsole verifyProof) sampleProcess ⟨[extraOutputTransition], 0, none⟩ =
      verifyProof "token.aleo/a" [(11, [[1, 302, 402, 502, 102, 202, 0]])]
        ⟨[extraOutputTransition], 0, none⟩ :=
  ⟨by decide, rfl⟩

/-! ### What an accepted execution has passed -/

/-- What `checkTransition` establishes of a transition: its ID is its Merkle root, it has at most
`MAX_INPUTS` inputs and outputs, and under its function ID each input verifies at its index and
each output at its index after the inputs. -/
structure TransitionValid (N : Console) (t : Transition) : Prop where
  id_eq_root : N.transitionRoot t = .ok t.id
  inputs_le : t.inputs.length ≤ N.MAX_INPUTS
  outputs_le : t.outputs.length ≤ N.MAX_INPUTS
  verified : ∃ functionId, N.functionId t.programId t.functionName = .ok functionId ∧
    (∀ i input, (i, input) ∈ t.inputs.enum → N.inputVerify input functionId t.tcm i) ∧
    ∀ i output, (i, output) ∈ t.outputs.enum →
      N.outputVerify output functionId t.tcm (t.inputs.length + i)

/-- A function with a finalize scope has the transition carry finalize inputs, at most
`MAX_INPUTS` of them and as many as the scope's operands and inputs. -/
def FinalizeFits (N : Console) (t : Transition) (function : Function) : Prop :=
  ∀ scope, function.finalize = some scope → ∃ inputs, t.finalize = some inputs ∧
    inputs.length ≤ N.MAX_INPUTS ∧ inputs.length = scope.numOperands ∧
    inputs.length = scope.numInputs

/-- What one turn of the loop establishes of the transition it pops: its own checks, a function
of a deployed program whose finalize scope its finalize inputs fit, and a verifying key. -/
structure TransitionAccepted (N : Console) (P : Process) (t : Transition) : Prop where
  valid : TransitionValid N t
  function : ∃ stack function, P.getStack t.programId = .ok stack ∧
    stack.getFunction t.functionName = .ok function ∧ FinalizeFits N t function
  verifyingKey : ∃ vk, P.getVerifyingKey t.programId t.functionName = .ok vk

theorem if_throw_eq_ok {b : Bool} {e : String} {x : Except String Unit} :
    (if b = true then .error e else x) = .ok () ↔ b = false ∧ x = .ok () := by
  cases b <;> simp

theorem checkTransition_eq_ok {N : Console} {t : Transition} :
    checkTransition N t = .ok () ↔ TransitionValid N t := by
  unfold checkTransition
  cases hr : N.transitionRoot t with
  | error e => exact iff_of_false nofun fun h => nomatch hr.symm.trans h.id_eq_root
  | ok root =>
    cases hf : N.functionId t.programId t.functionName with
    | error e =>
      refine iff_of_false (by simp only [except_ok_bind, except_bind_unit_eq_ok, except_error_bind,
        reduceCtorEq, and_false, not_false_eq_true]) fun h => ?_
      obtain ⟨_, hf', -⟩ := h.verified
      exact nomatch hf.symm.trans hf'
    | ok fid =>
      simp only [except_ok_bind, except_bind_unit_eq_ok, ensure_eq_ok, except_throw, except_pure,
        except_error_bind, if_throw_eq_ok, List.any_eq_false, Bool.not_eq_true', Bool.not_eq_false,
        Prod.forall, and_true]
      refine ⟨fun ⟨hid, hi, ho, hin, hout⟩ => ⟨hid ▸ hr, hi, ho, fid, hf, hin, hout⟩,
        fun ⟨hid, hi, ho, fid', hf', hin, hout⟩ => ?_⟩
      cases hf.symm.trans hf'
      exact ⟨(Except.ok.inj (hr.symm.trans hid)).symm, hi, ho, hin, hout⟩

theorem finalizeInputs_fits {N : Console} {function : Function} {t : Transition}
    {inputs out : List Nat} (h : finalizeInputs N function t inputs = .ok out) :
    FinalizeFits N t function := by
  intro scope hs
  unfold finalizeInputs at h
  rw [hs] at h
  cases hfin : t.finalize with
  | none => rw [hfin] at h; cases h
  | some fin =>
    rw [hfin] at h
    simp only [except_bind_unit_eq_ok, ensure_eq_ok] at h
    exact ⟨fin, rfl, h.1, h.2.1, h.2.2.1⟩

section Loop

variable (N : Console) (P : Process)

theorem transitionInstance_function {rest : List Transition} {t : Transition}
    {inst : Locator × Nat × List Nat} (h : transitionInstance N P rest t = .ok inst) :
    ∃ stack function, P.getStack t.programId = .ok stack ∧
      stack.getFunction t.functionName = .ok function ∧ FinalizeFits N t function := by
  obtain ⟨stack, hstack, h⟩ := except_bind_eq_ok.1 h
  obtain ⟨function, hfunction, h⟩ := except_bind_eq_ok.1 h
  obtain ⟨k, -, h⟩ := except_bind_eq_ok.1 h
  obtain ⟨inputs, hinputs, -⟩ := except_bind_eq_ok.1 h
  exact ⟨stack, function, hstack, hfunction, finalizeInputs_fits hinputs⟩

/-- Every transition of a queue whose instances the loop files passed its turn of the loop. -/
theorem instancesOf_accepted : ∀ {q : List Transition} {insts : List (Locator × Nat × List Nat)},
    instancesOf N P q = .ok insts → ∀ t ∈ q, TransitionAccepted N P t
  | [], _, _ => fun _ h => nomatch h
  | t :: rest, insts, h => by
    obtain ⟨u, hcheck, h⟩ := except_bind_eq_ok.1 h
    obtain ⟨inst, hinst, h⟩ := except_bind_eq_ok.1 h
    obtain ⟨insts', hrest, -⟩ := except_bind_eq_ok.1 h
    intro t' ht'
    rcases List.mem_cons.1 ht' with rfl | ht'
    · exact ⟨checkTransition_eq_ok.1 hcheck, transitionInstance_function N P hinst,
        _, (transitionInstance_eq_ok N P hinst).2⟩
    · exact instancesOf_accepted hrest t' ht'

end Loop

/-- **An accepted execution passed every check of the loop.** When `verify_execution` returns
`Ok`, the execution has a main transition whose program is deployed and whose function makes as
many calls as the execution has transitions; and every transition's ID is its root, its inputs
and outputs are within `MAX_INPUTS` and each verifies at its index, its function is in a deployed
program with a verifying key, and its finalize inputs fit the function's finalize scope. -/
theorem verifyExecution_accepted {N : Console} {P : Process} {E : Execution}
    (h : verifyExecution N P E = .ok ()) :
    (∃ main stack, E.peek = .ok main ∧ P.getStack main.programId = .ok stack ∧
      stack.numberOfCalls main.functionName = .ok E.transitions.length) ∧
    ∀ t ∈ E.transitions, TransitionAccepted N P t := by
  obtain ⟨⟨locator, vi⟩, hvi, -⟩ := except_bind_eq_ok.1 h
  obtain ⟨hmain, hloop⟩ := verifierInputsOf_spec hvi
  refine ⟨hmain, fun t ht => ?_⟩
  rw [verifyTransitions_eq] at hloop
  cases hi : instancesOf N P E.transitions.reverse with
  | error e => rw [hi] at hloop; cases hloop
  | ok insts => exact instancesOf_accepted N P hi t (List.mem_reverse.2 ht)

/-- The execution of `main` calling `a` and `b`, and `b` calling `c`, is accepted, and each of its
four transitions passed its turn of the loop. -/
theorem verifyExecution_accepted_sample :
    verifyExecution (sampleConsole fun _ _ _ => .ok ()) sampleProcess
        ⟨sampleCallTree.postOrder, 0, none⟩ = .ok () ∧
      ∀ t ∈ sampleCallTree.postOrder,
        TransitionAccepted (sampleConsole fun _ _ _ => .ok ()) sampleProcess t :=
  ⟨rfl, (@verifyExecution_accepted (sampleConsole fun _ _ _ => .ok ()) sampleProcess
    ⟨sampleCallTree.postOrder, 0, none⟩ rfl).2⟩

end SnarkVM.Synthesizer
