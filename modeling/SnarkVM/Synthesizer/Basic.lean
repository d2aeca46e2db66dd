import SnarkVM.Result
import Mathlib.Data.List.Basic

/-!
The objects `Process::verify_execution` reads: transitions and executions, the functions of a
program and the stacks that hold them, and the network's hashes and proof check. None of them is
defined in this source; they are modelled with the fields the verifier reads. Field elements,
hashes and verifying keys are numbers, and the cryptographic functions are fields of `Console`.

`Process` carries as a field that the stack it stores under a program ID has that program ID,
which the verifier relies on when it files an instance under `(stack.program_id(), ...)`.
-/

namespace SnarkVM.Synthesizer

/-- `ProgramID`: a name and a network, as in `credits.aleo`. -/
structure ProgramID where
  name : String
  network : String
  deriving DecidableEq, Repr

/-- `Locator`: a program ID and the name of one of its functions. -/
structure Locator where
  programId : ProgramID
  resource : String
  deriving DecidableEq, Repr

/-- `Locator`'s `Display`: `name.network/resource`. -/
def Locator.toString (l : Locator) : String :=
  l.programId.name ++ "." ++ l.programId.network ++ "/" ++ l.resource

/-- A transition input: its ID (a hash, or a serial number and a tag for a record) and the value
the prover may attach. -/
inductive Input
  | constant (hash : Nat) (value : Option Nat)
  | public (hash : Nat) (value : Option Nat)
  | «private» (hash : Nat) (value : Option Nat)
  | record (serialNumber tag : Nat)
  | externalRecord (hash : Nat)
  deriving DecidableEq, Repr

/-- `Input::verifier_inputs`: the input ID, and the tag of a record. -/
def Input.verifierInputs : Input → List Nat
  | .constant hash _ | .public hash _ | .private hash _ | .externalRecord hash => [hash]
  | .record serialNumber tag => [serialNumber, tag]

/-- A transition output: its ID (a hash, or a commitment and a checksum for a record) and the
value the prover may attach. -/
inductive Output
  | constant (hash : Nat) (value : Option Nat)
  | public (hash : Nat) (value : Option Nat)
  | «private» (hash : Nat) (value : Option Nat)
  | record (commitment checksum : Nat) (value : Option Nat)
  | externalRecord (hash : Nat)
  deriving DecidableEq, Repr

/-- `Output::id`. -/
def Output.id : Output → Nat
  | .constant hash _ | .public hash _ | .private hash _ | .externalRecord hash => hash
  | .record commitment _ _ => commitment

/-- `Output::verifier_inputs`: the output ID, and the checksum of a record. -/
def Output.verifierInputs : Output → List Nat
  | .constant hash _ | .public hash _ | .private hash _ | .externalRecord hash => [hash]
  | .record commitment checksum _ => [commitment, checksum]

/-- `Transition`: one function call of an execution, with the transition public key by its two
coordinates and the finalize inputs, if any. -/
structure Transition where
  id : Nat
  programId : ProgramID
  functionName : String
  inputs : List Input
  outputs : List Output
  tpk : Nat × Nat
  tcm : Nat
  finalize : Option (List Nat)
  deriving DecidableEq, Repr

/-- The locator of a transition's function. -/
def Transition.locator (t : Transition) : Locator := ⟨t.programId, t.functionName⟩

/-- `Transition::output_ids`. -/
def Transition.outputIds (t : Transition) : List Nat := t.outputs.map Output.id

/-- `Execution`: its transitions in the order the trace recorded them, callees before callers,
the global state root and the proof. -/
structure Execution where
  transitions : List Transition
  globalStateRoot : Nat
  proof : Option Nat
  deriving DecidableEq, Repr

/-- `Execution::peek`: the last transition, that of the main function. -/
def Execution.peek (e : Execution) : Except String Transition :=
  match e.transitions.getLast? with
  | some t => .ok t
  | none => .error "Attempted to get missing transition"

/-- An instruction of a function body, as far as the verifier looks: a `call` with its target,
or another instruction. -/
inductive Instruction
  | call (target : String)
  | other
  deriving DecidableEq, Repr

/-- The finalize scope of a function: the operands of its `finalize` command and the inputs of
its finalize logic. -/
structure FinalizeScope where
  numOperands : Nat
  numInputs : Nat
  deriving DecidableEq, Repr

/-- A function of a program: its name, the types of its declared inputs and outputs, its
instructions and its finalize scope. -/
structure Function where
  name : String
  inputs : List String
  outputs : List String
  instructions : List Instruction
  finalize : Option FinalizeScope
  deriving DecidableEq, Repr

/-- `Stack`: a program with its functions and verifying keys. `numberOfCalls` is
`get_number_of_calls` (the function and all its calls, transitively), and `isFunctionCall` is
`call.is_function_call(stack)` for a call target (a closure is not a function call). -/
structure Stack where
  programId : ProgramID
  functions : List Function
  verifyingKeys : List (String × Nat)
  numberOfCalls : String → Except String Nat
  isFunctionCall : String → Except String Bool

/-- `Stack::get_function`. -/
def Stack.getFunction (s : Stack) (name : String) : Except String Function :=
  match s.functions.find? (·.name = name) with
  | some f => .ok f
  | none => .error ("Function \x27" ++ name ++ "\x27 does not exist")

/-- `Stack::get_verifying_key`. -/
def Stack.getVerifyingKey (s : Stack) (name : String) : Except String Nat :=
  match s.verifyingKeys.lookup name with
  | some vk => .ok vk
  | none => .error ("Verifying key not found for \x27" ++ name ++ "\x27")

/-- `Process`: the stacks of the deployed programs, each stored under its own program ID. -/
structure Process where
  «stacks» : List (ProgramID × Stack)
  stacks_programId : ∀ p ∈ «stacks», p.2.programId = p.1

/-- `Process::get_stack`. -/
def Process.getStack (P : Process) (id : ProgramID) : Except String Stack :=
  match P.stacks.lookup id with
  | some s => .ok s
  | none => .error "Program does not exist"

/-- `Process::contains_program`. -/
def Process.containsProgram (P : Process) (id : ProgramID) : Bool := (P.stacks.lookup id).isSome

/-- `Process::get_verifying_key`. -/
def Process.getVerifyingKey (P : Process) (id : ProgramID) (name : String) : Except String Nat := do
  (← P.getStack id).getVerifyingKey name

/-- The network's constants and cryptographic functions that the verifier calls:
`Transition::to_root`, the function ID `hash_bhp1024(network ID, program name, network, function
name)`, `Input::verify` and `Output::verify` at an index, the finalize checksum
`hash_bhp1024` of the finalize inputs' bits, and `Trace::verify_execution_proof`. -/
structure Console where
  MAX_INPUTS : Nat
  transitionRoot : Transition → Except String Nat
  functionId : ProgramID → String → Except String Nat
  inputVerify : Input → Nat → Nat → Nat → Bool
  outputVerify : Output → Nat → Nat → Nat → Bool
  finalizeChecksum : List Nat → Except String Nat
  verifyExecutionProof : String → List (Nat × List (List Nat)) → Execution → Except String Unit

/-! ### Lookups -/

theorem getStack_programId {P : Process} {id : ProgramID} {s : Stack} (h : P.getStack id = .ok s) :
    s.programId = id := by
  unfold Process.getStack at h
  split at h
  · rename_i hl
    cases h
    obtain ⟨l₁, l₂, hl, -⟩ := List.lookup_eq_some_iff.1 hl
    exact P.stacks_programId (id, s) (by simp [hl])
  · cases h

theorem getFunction_name {s : Stack} {name : String} {f : Function} (h : s.getFunction name = .ok f) :
    f.name = name := by
  unfold Stack.getFunction at h
  split at h
  · rename_i hf
    cases h
    simpa using List.find?_some hf
  · cases h

end SnarkVM.Synthesizer
