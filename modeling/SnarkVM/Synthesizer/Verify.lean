import SnarkVM.Lru
import SnarkVM.Synthesizer.Execute

/-!
`VM::check_transaction` and the checks it calls (`synthesizer/src/vm/verify.rs`): the encoding,
the ID, the uniqueness of every ID a transaction introduces, the fee, then the deployment or
execution, and last the push of the transaction's checksum into the cache of partially-verified
transactions.

Every statement of `check_transaction` is compiled only without the feature
`test_skip_tx_checks`, and those statements read `rejected_id`, `buffer`, `rng`, `id`, `owner`,
`deployment` and `execution`, where the parameters and match patterns bind `_rejected_id`,
`_buffer`, `_rng`, `_id`, `_owner`, `_deployment` and `_execution`. Without the feature the model
reads the underscored bindings for those names; with it, `check_transaction` is
`Ok(())` (`checkTransaction` with `skipTxChecks` true).

`check_transaction` takes `&self`: its only write is the push into the cache. It is modelled in
`EStateM` over the VM, so an `Err` keeps the state it started from; its checks are the pure
`verifyTransaction`, which also returns whether the cache held the ID and the checksum.
`checkBeforePush` is the call up to the push: the part that other calls running at the same time
see the cache before, and write it after.

The ledger's types and functions (transactions and their IDs, deployments, fees, the costs, the
deployment and fee verifiers) are not in this source; `Ledger` stands for them.
-/

namespace SnarkVM.Synthesizer

/-- A fee, as `check_fee` and `check_fee_internal` read it. -/
structure Fee where
  amount : Except String Nat
  baseAmount : Except String Nat
  isFeePublic : Bool
  payer : Option Nat
  globalStateRoot : Nat

/-- A deployment: its edition, the program ID it deploys, and the rest of it by a digest. -/
structure Deployment where
  edition : Nat
  programId : ProgramID
  program : Nat
  deriving DecidableEq, Repr

/-- `Transaction`. -/
inductive Transaction
  | deploy (id : Nat) (owner : Nat) (deployment : Deployment) (fee : Fee)
  | execute (id : Nat) (execution : Execution) (fee : Option Fee)
  | fee (id : Nat) (fee : Fee)

/-- `Transaction::id`. -/
def Transaction.id : Transaction → Nat
  | .deploy id .. | .execute id .. | .fee id .. => id

/-- `matches!(transaction, Transaction::Fee(..))`. -/
def Transaction.isFee : Transaction → Bool
  | .fee .. => true
  | _ => false

/-- The kinds of IDs a transaction introduces, each checked by `ensure_is_unique!`. -/
inductive Item
  | transitionId
  | inputId
  | serialNumber
  | tag
  | outputId
  | commitment
  | nonce
  | transitionPublicKey
  | transitionCommitment
  deriving DecidableEq, Repr

/-- A value of the finalize store, as far as the fee check reads it. -/
inductive Value
  | u64 (n : Nat)
  | other
  deriving DecidableEq, Repr

/-- The ledger's functions that `check_transaction` calls: `write_le` into a writer limited to a
number of bytes, `to_bytes_le`, the transaction's `Display`, `to_root`, the IDs of each kind in a
transaction, `contains_split`, the checksum of a buffer, the deployment and execution IDs, the
owner's signature check, the two costs, `Process::verify_deployment`, `Process::verify_fee`, and
the network `verify_execution` runs with. -/
structure Ledger where
  MAX_TRANSACTION_SIZE : Nat
  MAX_FEE : Nat
  EDITION : Nat
  writeLe : Transaction → Nat → Except String Unit
  toBytesLe : Transaction → Except String (List UInt8)
  display : Transaction → String
  toRoot : Transaction → Except String Nat
  items : Item → Transaction → List Nat
  containsSplit : Transaction → Bool
  toChecksum : List UInt8 → Except String Nat
  deploymentId : Deployment → Except String Nat
  executionId : Execution → Except String Nat
  ownerVerify : Nat → Nat → Bool
  deploymentCost : Deployment → Except String Nat
  executionCost : Process → Execution → Except String Nat
  verifyDeployment : Process → Deployment → Except String Unit
  verifyFee : Process → Fee → Nat → Except String Unit
  network : Console

/-- The block store's lookups. -/
structure BlockStore where
  containsTransactionId : Nat → Except String Bool
  containsRejectedDeploymentOrExecutionId : Nat → Except String Bool
  containsStateRoot : Nat → Except String Bool
  currentBlockHeight : Nat

/-- The VM: its stores, its process, its restrictions and the cache of partially-verified
transactions, from transaction ID to transaction checksum. -/
structure VM where
  blockStore : BlockStore
  containsProgramId : ProgramID → Except String Bool
  transitionStore : Item → Nat → Except String Bool
  getValueSpeculative : ProgramID → String → Nat → Except String (Option Value)
  process : Process
  containsRestrictedTransitions : Execution → Nat → Bool
  partiallyVerifiedTransactions : LruCache Nat Nat

/-- `ProgramID`'s `Display`. -/
def ProgramID.toString (p : ProgramID) : String := p.name ++ "." ++ p.network

/-- `credits.aleo`. -/
def creditsProgramId : ProgramID := ⟨"credits", "aleo"⟩

/-- The name `ensure_is_unique!` gives a kind in its errors. -/
def Item.name : Item → String
  | .transitionId => "transition ID"
  | .inputId => "input ID"
  | .serialNumber => "serial number"
  | .tag => "tag"
  | .outputId => "output ID"
  | .commitment => "commitment"
  | .nonce => "nonce"
  | .transitionPublicKey => "transition public key"
  | .transitionCommitment => "transition commitment"

/-- The kinds, in the order `check_transaction` checks them. -/
def Item.all : List Item :=
  [.transitionId, .inputId, .serialNumber, .tag, .outputId, .commitment, .nonce,
    .transitionPublicKey, .transitionCommitment]

theorem Item.mem_all (item : Item) : item ∈ Item.all := by cases item <;> decide

/-- One step of the loop of `ensure_is_unique!`: the item is not in the ledger. -/
def ensureAbsent (name : String) (contains : Nat → Except String Bool) (item : Nat) :
    Except String Unit := do
  if ← contains item then throw s!"The {name} \x27{item}\x27 already exists in the ledger"

/-- `ensure_is_unique!(name, self, method, iter)`: no item twice, and none in the ledger. -/
def ensureIsUnique (name : String) (contains : Nat → Except String Bool) (items : List Nat) :
    Except String Unit := do
  if ¬ items.Nodup then throw s!"Found a duplicate {name} in the transaction"
  items.forM (ensureAbsent name contains)

/-- The block of `check_fee_internal` for a public fee: the payer's speculative balance in
`credits.aleo/account` covers the fee. -/
def checkPayerBalance (vm : VM) (fee : Fee) (feeAmount : Nat) : Except String Unit := do
  if fee.isFeePublic then
    let some payer := fee.payer
      | throw "Fee verification failed: fee is public, but the payer is missing"
    let some (Value.u64 balance) ← vm.getValueSpeculative creditsProgramId "account" payer
      | throw "Fee verification failed: fee is public, but the payer account balance is missing"
    ensure (balance ≥ feeAmount) "Fee verification failed: insufficient balance"

/-- The end of `check_fee_internal` and of `check_execution_internal`: the result of the
verification, then the global state root in the block store, with each one's leading error text
and its error for a missing root. -/
def ensureStateRoot (vm : VM) (verification : Except String Unit) (root : Nat)
    (lead missing : String) : Except String Unit :=
  match verification with
  | .ok () =>
    match vm.blockStore.containsStateRoot root with
    | .ok true => pure ()
    | .ok false => throw missing
    | .error error => throw s!"{lead}{error}"
  | .error error => throw s!"{lead}{error}"

/-- `VM::check_fee_internal`. -/
def checkFeeInternal (L : Ledger) (vm : VM) (fee : Fee) (deploymentOrExecutionId : Nat) :
    Except String Unit := do
  let feeAmount ← fee.amount
  ensure (feeAmount ≤ L.MAX_FEE) "Fee verification failed: fee exceeds the maximum limit"
  let verification := L.verifyFee vm.process fee deploymentOrExecutionId
  checkPayerBalance vm fee feeAmount
  ensureStateRoot vm verification fee.globalStateRoot "Fee verification failed: "
    "Fee verification failed: global state root not found"

/-- `VM::check_fee`. -/
def checkFee (L : Ledger) (vm : VM) (transaction : Transaction) (rejectedId : Option Nat) :
    Except String Unit :=
  match transaction with
  | .deploy id _ deployment fee => do
    ensure rejectedId.isNone s!"Transaction \x27{id}\x27 should not have a rejected ID (deployment)"
    let deploymentId ← (L.deploymentId deployment).mapError fun _ =>
      s!"Failed to compute the Merkle root for deployment transaction \x27{id}\x27"
    let cost ← L.deploymentCost deployment
    if (← fee.baseAmount) < cost then
      throw s!"Transaction \x27{id}\x27 has an insufficient base fee (deployment) - requires {cost} microcredits"
    checkFeeInternal L vm fee deploymentId
  | .execute id execution fee => do
    ensure rejectedId.isNone s!"Transaction \x27{id}\x27 should not have a rejected ID (execution)"
    let executionId ← (L.executionId execution).mapError fun _ =>
      s!"Failed to compute the Merkle root for execution transaction \x27{id}\x27"
    let isFeeRequired := !(execution.transitions.length == 1 && L.containsSplit transaction)
    match fee with
    | some fee => do
      if isFeeRequired then
        let cost ← L.executionCost vm.process execution
        if (← fee.baseAmount) < cost then
          throw s!"Transaction \x27{id}\x27 has an insufficient base fee (execution) - requires {cost} microcredits"
      else
        ensure ((← fee.baseAmount) = 0) s!"Transaction \x27{id}\x27 has a non-zero base fee (execution)"
      checkFeeInternal L vm fee executionId
    | none => ensure (!isFeeRequired) s!"Transaction \x27{id}\x27 is missing a fee (execution)"
  | .fee id fee =>
    match rejectedId with
    | some rejectedId => checkFeeInternal L vm fee rejectedId
    | none => throw s!"Transaction \x27{id}\x27 is missing a rejected ID (fee)"

/-- `VM::check_deployment_internal` (no panic to catch in `try_vm_runtime!`). -/
def checkDeploymentInternal (L : Ledger) (vm : VM) (deployment : Deployment) : Except String Unit :=
  (L.verifyDeployment vm.process deployment).mapError fun error =>
    s!"Deployment verification failed - {error}"

/-- `VM::check_execution_internal`. -/
def checkExecutionInternal (L : Ledger) (vm : VM) (execution : Execution)
    (isPartiallyVerified : Bool) : Except String Unit := do
  let blockHeight := vm.blockStore.currentBlockHeight
  if vm.containsRestrictedTransitions execution blockHeight then
    throw "Execution verification failed - restricted transition found"
  let verification := if isPartiallyVerified then .ok () else
    verifyExecution L.network vm.process execution
  ensureStateRoot vm verification execution.globalStateRoot "Execution verification failed - "
    "Execution verification failed - global state root does not exist (yet)"

/-- `Data::<Transaction<N>>::Buffer(transaction.to_bytes_le()?.into()).to_checksum::<N>()?`. -/
def transactionChecksum (L : Ledger) (transaction : Transaction) : Except String Nat := do
  L.toChecksum (← L.toBytesLe transaction)

/-- The first checks of `check_transaction` ("Verify the transaction ID"): the encoding fits
`MAX_TRANSACTION_SIZE`, the ID is new, and it is the transaction's Merkle root. -/
def checkTransactionId (L : Ledger) (vm : VM) (transaction : Transaction) : Except String Unit := do
  let id := transaction.id
  match L.writeLe transaction L.MAX_TRANSACTION_SIZE with
  | .error error => throw s!"Transaction \x27{id}\x27 is not well-formed: {error}"
  | .ok () => pure ()
  if ← vm.blockStore.containsTransactionId id then
    throw s!"Transaction \x27{id}\x27 already exists in the ledger"
  match L.toRoot transaction with
  | .ok root => if id ≠ root then throw s!"Incorrect transaction ID ({id})"
  | .error error =>
    let transaction := L.display transaction
    throw s!"Failed to compute the Merkle root of the transaction: {error}\n{transaction}"

/-- The nine `ensure_is_unique!` of `check_transaction` ("Check for duplicate elements"), each
with its kind's name and `contains_*` method of the transition store. -/
def checkItems (L : Ledger) (vm : VM) (transaction : Transaction) : Except String Unit :=
  Item.all.forM fun item =>
    ensureIsUnique item.name (vm.transitionStore item) (L.items item transaction)

/-- The `match transaction` of `check_transaction`: a deployment's owner, edition and program,
and its verification unless the cache held the ID; an execution's rejected-ID check and
`check_execution_internal`. -/
def checkDeployOrExecute (L : Ledger) (vm : VM) (transaction : Transaction)
    (isPartiallyVerified : Bool) : Except String Unit :=
  match transaction with
  | .deploy id owner deployment _ => do
    let deploymentId ← (L.deploymentId deployment).mapError fun _ =>
      s!"Failed to compute the Merkle root for a deployment transaction \x27{id}\x27"
    ensure (L.ownerVerify owner deploymentId)
      s!"Invalid owner signature for deployment transaction \x27{id}\x27"
    if deployment.edition ≠ L.EDITION then
      let edition := L.EDITION
      throw s!"Invalid deployment transaction \x27{id}\x27 - expected edition {edition}"
    let programId := deployment.programId.toString
    if ← vm.containsProgramId deployment.programId then
      throw s!"Program ID \x27{programId}\x27 is already deployed"
    if vm.process.containsProgram deployment.programId then
      throw s!"Program ID \x27{programId}\x27 already exists"
    if !isPartiallyVerified then checkDeploymentInternal L vm deployment
  | .execute id execution _ => do
    let executionId ← (L.executionId execution).mapError fun _ =>
      s!"Failed to compute the Merkle root for an execution transaction \x27{id}\x27"
    if ← vm.blockStore.containsRejectedDeploymentOrExecutionId executionId then
      throw s!"Transaction \x27{id}\x27 contains a previously rejected execution"
    checkExecutionInternal L vm execution isPartiallyVerified
  | .fee .. => pure ()

/-- The checks of `check_transaction`, in its order, up to the push: whether the cache held the
transaction ID, and the transaction's checksum. -/
def verifyTransaction (L : Ledger) (vm : VM) (transaction : Transaction) (rejectedId : Option Nat) :
    Except String (Bool × Nat) := do
  checkTransactionId L vm transaction
  checkItems L vm transaction
  checkFee L vm transaction rejectedId
  let checksum ← transactionChecksum L transaction
  let isPartiallyVerified := (vm.partiallyVerifiedTransactions.peek transaction.id).isSome
  checkDeployOrExecute L vm transaction isPartiallyVerified
  pure (isPartiallyVerified, checksum)

/-- The VM with `(id, checksum)` pushed into its cache of partially-verified transactions. -/
def VM.pushPartiallyVerified (vm : VM) (id checksum : Nat) : VM :=
  { vm with partiallyVerifiedTransactions := (vm.partiallyVerifiedTransactions.push id checksum).1 }

/-- `Except` in `EStateM`: an error is thrown, keeping the state. -/
def liftExcept {ε σ α : Type} : Except ε α → EStateM ε σ α
  | .ok a => pure a
  | .error e => throw e

/-- `VM::check_transaction`, with `skipTxChecks` for the feature `test_skip_tx_checks`. -/
def checkTransaction (L : Ledger) (skipTxChecks : Bool) (transaction : Transaction)
    (rejectedId : Option Nat) : EStateM String VM Unit :=
  if skipTxChecks then pure () else do
    let vm ← get
    let (isPartiallyVerified, checksum) ← liftExcept (verifyTransaction L vm transaction rejectedId)
    if !transaction.isFee && !isPartiallyVerified then
      modify fun vm => vm.pushPartiallyVerified transaction.id checksum

/-- `check_transaction` up to its write: the checks, against the VM as they find it, and the
checksum to push, if any. The checks read the cache once, at `peek`, and the push writes it once,
so calls running at the same time may write the cache between the two. -/
def checkBeforePush (L : Ledger) (skipTxChecks : Bool) (transaction : Transaction)
    (rejectedId : Option Nat) (vm : VM) : Except String (Option Nat) :=
  if skipTxChecks then pure none else do
    let (isPartiallyVerified, checksum) ← verifyTransaction L vm transaction rejectedId
    pure (if !transaction.isFee && !isPartiallyVerified then some checksum else none)

/-! ### A sample ledger and VM -/

/-- Executions of `a` that differ only in their proof. -/
def sampleExecution (proof : Nat) : Execution := ⟨[sampleTransition 2 "a"], 0, some proof⟩

/-- A ledger where every check passes except the proof of an execution, which verifies only when
it is `1`. The transaction ID does not cover the proof; the bytes, and so the checksum, do. -/
def sampleLedger : Ledger where
  MAX_TRANSACTION_SIZE := 1024
  MAX_FEE := 0
  EDITION := 1
  writeLe _ _ := .ok ()
  toBytesLe
    | .execute _ execution _ => .ok [(execution.proof.getD 0).toUInt8]
    | _ => .ok []
  display _ := ""
  toRoot t := .ok t.id
  items _ _ := []
  containsSplit _ := true
  toChecksum bytes := .ok (bytes.headD 0).toNat
  deploymentId _ := .ok 0
  executionId _ := .ok 0
  ownerVerify _ _ := true
  deploymentCost _ := .ok 0
  executionCost _ _ := .ok 0
  verifyDeployment _ _ := .ok ()
  verifyFee _ _ _ := .ok ()
  network := sampleConsole fun _ _ execution => ensure (execution.proof = some 1) "invalid proof"

/-- A private fee of `0`. -/
def sampleFee : Fee := ⟨.ok 0, .ok 0, false, none, 0⟩

/-- A VM with empty stores and an empty cache. -/
def sampleVM : VM where
  blockStore := ⟨fun _ => .ok false, fun _ => .ok false, fun _ => .ok true, 0⟩
  containsProgramId _ := .ok false
  transitionStore _ _ := .ok false
  getValueSpeculative _ _ _ := .ok none
  process := sampleProcess
  containsRestrictedTransitions _ _ := false
  partiallyVerifiedTransactions := LruCache.new 16 (by decide)

/-! ### What each check establishes -/

section Checks

variable {L : Ledger} {vm : VM}

theorem ensureIsUnique_eq_ok {name : String} {contains : Nat → Except String Bool} {items : List Nat} :
    ensureIsUnique name contains items = .ok () ↔ items.Nodup ∧ ∀ x ∈ items, contains x = .ok false := by
  have hstep : ∀ x, ensureAbsent name contains x = .ok () ↔ contains x = .ok false := fun x => by
    unfold ensureAbsent
    cases contains x with
    | error e => simp
    | ok b => cases b <;> simp
  unfold ensureIsUnique
  by_cases h : items.Nodup <;> simp [h, except_forM_eq_ok, hstep]

theorem ensureStateRoot_eq_ok {verification : Except String Unit} {root : Nat}
    {lead missing : String} :
    ensureStateRoot vm verification root lead missing = .ok () ↔
      verification = .ok () ∧ vm.blockStore.containsStateRoot root = .ok true := by
  unfold ensureStateRoot
  rcases verification with _ | ⟨⟨⟩⟩
  · simp
  · rcases vm.blockStore.containsStateRoot root with _ | _ | _ <;> simp

theorem checkTransactionId_eq_ok {t : Transaction} :
    checkTransactionId L vm t = .ok () ↔ L.writeLe t L.MAX_TRANSACTION_SIZE = .ok () ∧
      vm.blockStore.containsTransactionId t.id = .ok false ∧ L.toRoot t = .ok t.id := by
  unfold checkTransactionId
  dsimp only
  rcases L.writeLe t L.MAX_TRANSACTION_SIZE with _ | ⟨⟨⟩⟩
  · simp
  rcases vm.blockStore.containsTransactionId t.id with _ | _ | _
  · simp
  · rcases L.toRoot t with _ | root <;> simp
    exact eq_comm
  · simp

theorem checkItems_eq_ok {t : Transaction} :
    checkItems L vm t = .ok () ↔
      ∀ item, (L.items item t).Nodup ∧ ∀ x ∈ L.items item t, vm.transitionStore item x = .ok false := by
  simp only [checkItems, except_forM_eq_ok, ensureIsUnique_eq_ok]
  exact ⟨fun h item => h item item.mem_all, fun h item _ => h item⟩

/-- A fee that `check_fee_internal` accepts against `id`: its amount is at most `MAX_FEE`, it
passes `verify_fee`, its global state root is in the block store, and a public fee's payer has a
speculative balance of at least the amount. -/
def FeeChecked (L : Ledger) (vm : VM) (fee : Fee) (id : Nat) : Prop :=
  ∃ amount, fee.amount = .ok amount ∧ amount ≤ L.MAX_FEE ∧
    L.verifyFee vm.process fee id = .ok () ∧
    vm.blockStore.containsStateRoot fee.globalStateRoot = .ok true ∧
    (fee.isFeePublic = true → ∃ payer balance, fee.payer = some payer ∧
      vm.getValueSpeculative creditsProgramId "account" payer = .ok (some (.u64 balance)) ∧
      amount ≤ balance)

theorem checkPayerBalance_eq_ok {fee : Fee} {amount : Nat} :
    checkPayerBalance vm fee amount = .ok () ↔ (fee.isFeePublic = true → ∃ payer balance,
      fee.payer = some payer ∧
      vm.getValueSpeculative creditsProgramId "account" payer = .ok (some (.u64 balance)) ∧
      amount ≤ balance) := by
  unfold checkPayerBalance
  cases fee.isFeePublic
  · simp
  rcases fee.payer with _ | payer
  · simp
  dsimp only
  rcases h : vm.getValueSpeculative creditsProgramId "account" payer with _ | _ | _ | _ <;>
    simp [h, ensure]

theorem checkFeeInternal_eq_ok {fee : Fee} {id : Nat} :
    checkFeeInternal L vm fee id = .ok () ↔ FeeChecked L vm fee id := by
  unfold checkFeeInternal FeeChecked
  rcases fee.amount with _ | amount
  · simp
  by_cases hmax : amount ≤ L.MAX_FEE
  swap
  · simp [ensure, hmax]
  simp only [except_ok_bind, ensure, if_pos hmax, except_bind_unit_eq_ok, checkPayerBalance_eq_ok,
    ensureStateRoot_eq_ok, Except.ok.injEq, exists_eq_left', hmax, true_and]
  tauto

/-- **The fee rules of `check_fee`**: a fee transaction carries a rejected ID and its fee is
checked against it; a deployment or an execution carries none. A deployment's base fee covers its
cost. An execution carries a fee whose base fee covers its cost, or is one split transition with
no fee or a zero base fee; every fee it carries is checked against its execution ID. -/
def FeeRules (L : Ledger) (vm : VM) : Transaction → Option Nat → Prop
  | .deploy _ _ deployment fee, rejectedId => rejectedId = none ∧
    ∃ deploymentId cost base, L.deploymentId deployment = .ok deploymentId ∧
      L.deploymentCost deployment = .ok cost ∧ fee.baseAmount = .ok base ∧ cost ≤ base ∧
      FeeChecked L vm fee deploymentId
  | t@(.execute _ execution fee), rejectedId => rejectedId = none ∧
    ∃ executionId, L.executionId execution = .ok executionId ∧
      ((∃ f ∈ fee, ∃ cost base, L.executionCost vm.process execution = .ok cost ∧
          f.baseAmount = .ok base ∧ cost ≤ base) ∨
        (execution.transitions.length = 1 ∧ L.containsSplit t = true ∧
          ∀ f ∈ fee, f.baseAmount = .ok 0)) ∧
      ∀ f ∈ fee, FeeChecked L vm f executionId
  | .fee _ fee, rejectedId => ∃ r, rejectedId = some r ∧ FeeChecked L vm fee r

/-- A fee-exempt execution (one split transition) that carries a fee carries a zero base fee:
the one rule of `check_fee` that `FeeRules` leaves out. -/
def SplitFeeZero (L : Ledger) : Transaction → Prop
  | t@(.execute _ execution (some fee)) =>
    execution.transitions.length = 1 → L.containsSplit t = true → fee.baseAmount = .ok 0
  | _ => True

theorem feeRules_of_checkFee {t : Transaction} {r : Option Nat} (h : checkFee L vm t r = .ok ()) :
    FeeRules L vm t r ∧ SplitFeeZero L t := by
  cases t with
  | deploy id owner deployment fee =>
    simp only [checkFee, except_bind_eq_ok, Unique.exists_iff, ensure_eq_ok,
      except_mapError_eq_ok] at h
    obtain ⟨hr, did, hdid, cost, hcost, base, hbase, h⟩ := h
    split_ifs at h with hlt
    · simp at h
    · exact ⟨⟨by simpa using hr, did, cost, base, hdid, hcost, hbase, by omega,
        checkFeeInternal_eq_ok.1 (by simpa using h)⟩, trivial⟩
  | execute id execution fee =>
    simp only [checkFee, except_bind_eq_ok, Unique.exists_iff, ensure_eq_ok,
      except_mapError_eq_ok] at h
    obtain ⟨hr, eid, heid, h⟩ := h
    cases fee with
    | none =>
      simp only [ensure_eq_ok, Bool.not_not, Bool.and_eq_true, beq_iff_eq] at h
      exact ⟨⟨by simpa using hr, eid, heid, .inr ⟨h.1, h.2, by simp⟩, by simp⟩, trivial⟩
    | some f =>
      dsimp only at h
      split_ifs at h with hreq
      · simp only [except_bind_eq_ok] at h
        obtain ⟨cost, hcost, base, hbase, h⟩ := h
        split_ifs at h with hlt
        · simp at h
        simp only [Bool.not_eq_true', Bool.and_eq_false_imp, beq_eq_false_iff_ne] at hreq
        exact ⟨⟨by simpa using hr, eid, heid, .inl ⟨f, rfl, cost, base, hcost, hbase, by omega⟩,
          by simpa [checkFeeInternal_eq_ok] using h⟩, fun hl hs => by simp [hl, hs] at hreq⟩
      · simp only [except_bind_eq_ok, Unique.exists_iff, ensure_eq_ok] at h
        obtain ⟨base, hbase, h0, h⟩ := h
        simp only [Bool.not_eq_true', Bool.not_eq_false, Bool.and_eq_true, beq_iff_eq] at hreq
        exact ⟨⟨by simpa using hr, eid, heid, .inr ⟨hreq.1, hreq.2, by simp [hbase, h0]⟩,
          by simpa [checkFeeInternal_eq_ok] using h⟩, fun _ _ => by rw [hbase, h0]⟩
  | fee id fee =>
    cases r with
    | none => simp [checkFee] at h
    | some r => exact ⟨⟨r, rfl, checkFeeInternal_eq_ok.1 h⟩, trivial⟩

theorem checkFee_of_feeRules {t : Transaction} {r : Option Nat} (h : FeeRules L vm t r)
    (hz : SplitFeeZero L t) : checkFee L vm t r = .ok () := by
  cases t with
  | deploy id owner deployment fee =>
    obtain ⟨rfl, did, cost, base, hdid, hcost, hbase, hle, hfc⟩ := h
    simp [checkFee, ensure, Except.mapError, hdid, hcost, hbase, Nat.not_lt.2 hle,
      checkFeeInternal_eq_ok.2 hfc]
  | execute id execution fee =>
    obtain ⟨rfl, eid, heid, hdisj, hfc⟩ := h
    cases fee with
    | none =>
      rcases hdisj with ⟨f, hf, -⟩ | ⟨hlen, hsplit, -⟩
      · cases hf
      · simp [checkFee, ensure, Except.mapError, heid, hlen, hsplit]
    | some f =>
      have hfc := checkFeeInternal_eq_ok.2 (hfc f rfl)
      by_cases hreq : execution.transitions.length = 1 ∧
          L.containsSplit (.execute id execution (some f)) = true
      · simp [checkFee, ensure, Except.mapError, heid, hreq.1, hreq.2, hz hreq.1 hreq.2, hfc]
      · rcases hdisj with ⟨f', hf', cost, base, hcost, hbase, hle⟩ | ⟨hlen, hsplit, -⟩
        · cases hf'
          have hreq' : ¬execution.transitions.length = 1 ∨
              L.containsSplit (.execute id execution (some f)) = false := by
            simpa only [not_and_or, Bool.not_eq_true] using hreq
          simp [checkFee, ensure, Except.mapError, heid, hcost, hbase, Nat.not_lt.2 hle, hfc, hreq']
        · exact absurd ⟨hlen, hsplit⟩ hreq
  | fee id fee =>
    obtain ⟨rid, rfl, hfc⟩ := h
    exact checkFeeInternal_eq_ok.2 hfc

theorem checkExecutionInternal_eq_ok {e : Execution} {b : Bool} :
    checkExecutionInternal L vm e b = .ok () ↔
      vm.containsRestrictedTransitions e vm.blockStore.currentBlockHeight = false ∧
      (b = false → verifyExecution L.network vm.process e = .ok ()) ∧
      vm.blockStore.containsStateRoot e.globalStateRoot = .ok true := by
  unfold checkExecutionInternal
  dsimp only
  cases vm.containsRestrictedTransitions e vm.blockStore.currentBlockHeight
  · cases b <;> simp [ensureStateRoot_eq_ok]
  · simp

/-- What the `match transaction` of `check_transaction` establishes: a deployment's owner signs
its deployment ID, its edition is the network's, its program is neither stored nor in the
process, and it is verified unless the cache held the transaction ID; an execution was not
rejected before, has no restricted transition, is verified unless the cache held the ID, and its
global state root is in the block store. -/
def KindRules (L : Ledger) (vm : VM) (isPartiallyVerified : Bool) : Transaction → Prop
  | .deploy _ owner deployment _ => ∃ deploymentId, L.deploymentId deployment = .ok deploymentId ∧
    L.ownerVerify owner deploymentId = true ∧ deployment.edition = L.EDITION ∧
    vm.containsProgramId deployment.programId = .ok false ∧
    vm.process.containsProgram deployment.programId = false ∧
    (isPartiallyVerified = false → checkDeploymentInternal L vm deployment = .ok ())
  | .execute _ execution _ => ∃ executionId, L.executionId execution = .ok executionId ∧
    vm.blockStore.containsRejectedDeploymentOrExecutionId executionId = .ok false ∧
    vm.containsRestrictedTransitions execution vm.blockStore.currentBlockHeight = false ∧
    (isPartiallyVerified = false → verifyExecution L.network vm.process execution = .ok ()) ∧
    vm.blockStore.containsStateRoot execution.globalStateRoot = .ok true
  | .fee .. => True

theorem kindRules_of_checkDeployOrExecute {t : Transaction} {b : Bool}
    (h : checkDeployOrExecute L vm t b = .ok ()) : KindRules L vm b t := by
  cases t with
  | deploy id owner deployment fee =>
    simp only [checkDeployOrExecute, except_bind_eq_ok, Unique.exists_iff, ensure_eq_ok,
      except_mapError_eq_ok] at h
    obtain ⟨did, hdid, hown, h⟩ := h
    by_cases hed : deployment.edition = L.EDITION
    swap
    · simp [hed] at h
    rcases hc : vm.containsProgramId deployment.programId with _ | _ | _
    · simp [hed, hc] at h
    · cases hp : vm.process.containsProgram deployment.programId
      · exact ⟨did, hdid, hown, hed, hc, hp, fun hb => by simpa [hed, hc, hp, hb] using h⟩
      · simp [hed, hc, hp] at h
    · simp [hed, hc] at h
  | execute id execution fee =>
    simp only [checkDeployOrExecute, except_bind_eq_ok, Unique.exists_iff,
      except_mapError_eq_ok] at h
    obtain ⟨eid, heid, rejected, hrejected, h⟩ := h
    cases rejected
    · exact ⟨eid, heid, hrejected, by simpa [checkExecutionInternal_eq_ok] using h⟩
    · simp at h
  | fee => trivial

theorem checkDeployOrExecute_of_kindRules {t : Transaction} {b : Bool} (h : KindRules L vm b t) :
    checkDeployOrExecute L vm t b = .ok () := by
  cases t with
  | deploy id owner deployment fee =>
    obtain ⟨did, hdid, hown, hed, hc, hp, hv⟩ := h
    cases b
    · simp [checkDeployOrExecute, ensure, Except.mapError, hdid, hown, hed, hc, hp, hv rfl]
    · simp [checkDeployOrExecute, ensure, Except.mapError, hdid, hown, hed, hc, hp]
  | execute id execution fee =>
    obtain ⟨eid, heid, hrej, hres, hv, hroot⟩ := h
    simp [checkDeployOrExecute, Except.mapError, heid, hrej,
      checkExecutionInternal_eq_ok.2 ⟨hres, hv, hroot⟩]
  | fee => rfl

/-! The checks before the `peek` and the `match transaction` do not read the cache. -/

variable {t : Transaction} {c : LruCache Nat Nat}

end Checks

/-! ### What `check_transaction` establishes, and what it changes -/

/-- **What an accepted transaction satisfies**: its encoding fits, its ID is new and is its Merkle
root, the IDs of each kind it introduces are distinct and new to the transition store, and it
keeps the fee rules and the rules of its kind, given whether the cache held its ID. -/
structure Accepted (L : Ledger) (vm : VM) (transaction : Transaction) (rejectedId : Option Nat) :
    Prop where
  write_ok : L.writeLe transaction L.MAX_TRANSACTION_SIZE = .ok ()
  id_new : vm.blockStore.containsTransactionId transaction.id = .ok false
  id_root : L.toRoot transaction = .ok transaction.id
  items_nodup : ∀ item, (L.items item transaction).Nodup
  items_new : ∀ item, ∀ x ∈ L.items item transaction, vm.transitionStore item x = .ok false
  fee_rules : FeeRules L vm transaction rejectedId
  kind_rules : KindRules L vm (vm.partiallyVerifiedTransactions.peek transaction.id).isSome transaction

section Transaction

variable {L : Ledger} {vm : VM} {t : Transaction} {r : Option Nat}

theorem verifyTransaction_eq_ok {b : Bool} {cs : Nat} (h : verifyTransaction L vm t r = .ok (b, cs)) :
    Accepted L vm t r ∧ SplitFeeZero L t ∧ b = (vm.partiallyVerifiedTransactions.peek t.id).isSome ∧
      transactionChecksum L t = .ok cs := by
  simp only [verifyTransaction, except_bind_eq_ok, Unique.exists_iff] at h
  obtain ⟨hid, hitems, hfee, cs', hcs, hkind, h⟩ := h
  cases h
  obtain ⟨hw, hnew, hroot⟩ := checkTransactionId_eq_ok.1 hid
  have hitems := checkItems_eq_ok.1 hitems
  obtain ⟨hrules, hz⟩ := feeRules_of_checkFee hfee
  exact ⟨⟨hw, hnew, hroot, fun item => (hitems item).1, fun item => (hitems item).2,
    hrules, kindRules_of_checkDeployOrExecute hkind⟩, hz, rfl, hcs⟩

theorem verifyTransaction_of_accepted {cs : Nat} (h : Accepted L vm t r) (hz : SplitFeeZero L t)
    (hcs : transactionChecksum L t = .ok cs) :
    verifyTransaction L vm t r = .ok ((vm.partiallyVerifiedTransactions.peek t.id).isSome, cs) := by
  have hid := checkTransactionId_eq_ok.2 ⟨h.write_ok, h.id_new, h.id_root⟩
  have hitems := checkItems_eq_ok.2 fun item => ⟨h.items_nodup item, h.items_new item⟩
  simp only [verifyTransaction, hid, hitems, checkFee_of_feeRules h.fee_rules hz, hcs,
    checkDeployOrExecute_of_kindRules h.kind_rules, except_ok_bind, except_pure]

/-- Without the feature, `check_transaction` runs the checks, and on `Ok` pushes the checksum
unless the transaction is a fee or the cache held its ID; an `Err` keeps the state. -/
theorem checkTransaction_run (L : Ledger) (t : Transaction) (r : Option Nat) (vm : VM) :
    (checkTransaction L false t r).run vm =
      match verifyTransaction L vm t r with
      | .ok (b, cs) => .ok () (if !t.isFee && !b then vm.pushPartiallyVerified t.id cs else vm)
      | .error e => .error e vm := by
  rcases h : verifyTransaction L vm t r with e | ⟨b, cs⟩ <;>
    simp [checkTransaction, h, liftExcept, EStateM.run, bind, EStateM.bind, get, getThe,
      MonadStateOf.get, EStateM.get, throw, throwThe, MonadExceptOf.throw, EStateM.throw, pure,
      EStateM.pure]
  split_ifs <;> rfl

/-- `check_transaction` is its checks, then the push they ask for; an `Err` keeps the state. -/
theorem checkTransaction_run_eq (L : Ledger) (skipTxChecks : Bool) (t : Transaction)
    (r : Option Nat) (vm : VM) :
    (checkTransaction L skipTxChecks t r).run vm =
      match checkBeforePush L skipTxChecks t r vm with
      | .ok none => .ok () vm
      | .ok (some cs) => .ok () (vm.pushPartiallyVerified t.id cs)
      | .error e => .error e vm := by
  cases skipTxChecks
  · rw [checkTransaction_run]
    rcases h : verifyTransaction L vm t r with e | ⟨b, cs⟩ <;>
      simp only [checkBeforePush, h, Bool.false_eq_true, if_false, except_ok_bind, except_pure]
    · rfl
    · cases !t.isFee && !b <;> rfl
  · rfl

/-- **`check_transaction` accepts only what it checked**: built without `test_skip_tx_checks`,
an `Ok` means the transaction keeps every rule of `Accepted`. -/
theorem checkTransaction_accepted {vm' : VM}
    (h : (checkTransaction L false t r).run vm = .ok () vm') : Accepted L vm t r := by
  rw [checkTransaction_run] at h
  split at h
  · exact (verifyTransaction_eq_ok ‹_›).1
  · cases h

theorem checkTransaction_accepted_sample :
    (checkTransaction sampleLedger false (.execute 7 (sampleExecution 1) none) none).run sampleVM =
      .ok () (sampleVM.pushPartiallyVerified 7 1) ∧
    Accepted sampleLedger sampleVM (.execute 7 (sampleExecution 1) none) none :=
  ⟨rfl, @checkTransaction_accepted sampleLedger sampleVM _ none _ rfl⟩

/-- **The frame of `check_transaction`**: built without `test_skip_tx_checks`, it returns `Err`
with the VM as it was, or `Ok` with the VM as it was except for one push of the transaction's
checksum under its ID, made exactly when the transaction is not a fee and the cache did not hold
its ID (a cache hit leaves the cache, and its order, as they were). -/
theorem checkTransaction_frame (L : Ledger) (t : Transaction) (r : Option Nat) (vm : VM) :
    (∃ e, (checkTransaction L false t r).run vm = .error e vm) ∨
      ∃ cs, transactionChecksum L t = .ok cs ∧
        (checkTransaction L false t r).run vm = .ok ()
          (if !t.isFee && (vm.partiallyVerifiedTransactions.peek t.id).isNone then
            vm.pushPartiallyVerified t.id cs else vm) := by
  rw [checkTransaction_run]
  rcases h : verifyTransaction L vm t r with e | ⟨b, cs⟩
  · exact .inl ⟨e, rfl⟩
  · obtain ⟨-, -, rfl, hcs⟩ := verifyTransaction_eq_ok h
    exact .inr ⟨cs, hcs, by simp⟩

/-- **`check_transaction` rejects nothing else**: built without `test_skip_tx_checks`, it returns
`Ok` exactly on the transactions that keep every rule of `Accepted`, carry a zero base fee if
they are a fee-exempt split with a fee, and whose checksum can be computed. -/
theorem checkTransaction_ok_iff (L : Ledger) (t : Transaction) (r : Option Nat) (vm : VM) :
    (∃ vm', (checkTransaction L false t r).run vm = .ok () vm') ↔
      Accepted L vm t r ∧ SplitFeeZero L t ∧ ∃ cs, transactionChecksum L t = .ok cs := by
  rw [checkTransaction_run]
  constructor
  · rintro ⟨vm', h⟩
    rcases hv : verifyTransaction L vm t r with e | ⟨b, cs⟩
    · rw [hv] at h
      cases h
    · obtain ⟨hacc, hz, -, hcs⟩ := verifyTransaction_eq_ok hv
      exact ⟨hacc, hz, cs, hcs⟩
  · rintro ⟨hacc, hz, cs, hcs⟩
    rw [verifyTransaction_of_accepted hacc hz hcs]
    exact ⟨_, rfl⟩

/-- With `test_skip_tx_checks`, `check_transaction` is `Ok(())` and changes nothing. -/
theorem checkTransaction_skipTxChecks (L : Ledger) (t : Transaction) (r : Option Nat) (vm : VM) :
    (checkTransaction L true t r).run vm = .ok () vm := rfl

/-- With `test_skip_tx_checks`, a fee transaction with no rejected ID is accepted, which no
build that checks the fee rules does. -/
theorem checkTransaction_skip_fee_accepted :
    (checkTransaction sampleLedger true (.fee 7 sampleFee) none).run sampleVM = .ok () sampleVM ∧
      ¬ Accepted sampleLedger sampleVM (.fee 7 sampleFee) none :=
  ⟨checkTransaction_skipTxChecks _ _ _ _, fun h => by simpa [FeeRules] using h.fee_rules⟩

/-- With `test_skip_tx_checks`, an execution whose ID is not cached is accepted and nothing is
pushed. -/
theorem checkTransaction_skip_no_push :
    (checkTransaction sampleLedger true (.execute 7 (sampleExecution 1) none) none).run sampleVM =
      .ok () sampleVM ∧ (Transaction.execute 7 (sampleExecution 1) none).isFee = false ∧
    sampleVM.partiallyVerifiedTransactions.peek 7 = none :=
  ⟨checkTransaction_skipTxChecks _ _ _ _, rfl, rfl⟩

end Transaction

/-! ### The cache over a sequence of calls -/

/-- The VM after one call of `check_transaction`, whether it returned `Ok` or `Err`. -/
def afterCheck (L : Ledger) (skipTxChecks : Bool) (vm : VM) (call : Transaction × Option Nat) :
    VM :=
  match (checkTransaction L skipTxChecks call.1 call.2).run vm with
  | .ok _ vm' => vm'
  | .error _ vm' => vm'

/-- The VM after a sequence of calls of `check_transaction`. -/
def afterChecks (L : Ledger) (skipTxChecks : Bool) (vm : VM)
    (calls : List (Transaction × Option Nat)) : VM :=
  calls.foldl (afterCheck L skipTxChecks) vm

/-- The full verification a cache hit skips: `check_deployment_internal` for a deployment, and
`verify_execution` inside `check_execution_internal` for an execution. -/
def FullyVerified (L : Ledger) (vm : VM) : Transaction → Prop
  | .deploy _ _ deployment _ => checkDeploymentInternal L vm deployment = .ok ()
  | .execute _ execution _ => verifyExecution L.network vm.process execution = .ok ()
  | .fee .. => False

/-- Every entry of the cache comes from one of `calls`, on a transaction of that ID and checksum
that was fully verified. -/
def CacheVerified (L : Ledger) (vm : VM) (calls : List (Transaction × Option Nat)) : Prop :=
  ∀ e ∈ vm.partiallyVerifiedTransactions.entries, ∃ t r, (t, r) ∈ calls ∧ t.id = e.1 ∧
    transactionChecksum L t = .ok e.2 ∧ FullyVerified L vm t

section Calls

variable {L : Ledger} {vm : VM} {t : Transaction} {r : Option Nat}

theorem fullyVerified_withCache {c : LruCache Nat Nat} :
    FullyVerified L { vm with partiallyVerifiedTransactions := c } t ↔ FullyVerified L vm t := by
  cases t <;> rfl

theorem fullyVerified_pushPartiallyVerified {id cs : Nat} :
    FullyVerified L (vm.pushPartiallyVerified id cs) t ↔ FullyVerified L vm t :=
  fullyVerified_withCache

theorem fullyVerified_of_kindRules (hfee : t.isFee = false) (h : KindRules L vm false t) :
    FullyVerified L vm t := by
  cases t with
  | deploy =>
    obtain ⟨-, -, -, -, -, -, hv⟩ := h
    exact hv rfl
  | execute =>
    obtain ⟨-, -, -, -, hv, -⟩ := h
    exact hv rfl
  | fee => cases hfee

/-- Without the feature, the VM after a call: the push if the checks pass on a transaction that
is not a fee and whose ID the cache did not hold, else the VM as it was. -/
theorem afterCheck_eq (L : Ledger) (vm : VM) (t : Transaction) (r : Option Nat) :
    afterCheck L false vm (t, r) =
      match verifyTransaction L vm t r with
      | .ok (b, cs) => if !t.isFee && !b then vm.pushPartiallyVerified t.id cs else vm
      | .error _ => vm := by
  unfold afterCheck
  rw [checkTransaction_run]
  rcases verifyTransaction L vm t r with _ | ⟨b, cs⟩ <;> rfl

/-- A push is asked for only with the checksum of a transaction that passed its full
verification. -/
theorem checkBeforePush_eq_some {skipTxChecks : Bool} {cs : Nat}
    (h : checkBeforePush L skipTxChecks t r vm = .ok (some cs)) :
    transactionChecksum L t = .ok cs ∧ FullyVerified L vm t := by
  cases skipTxChecks
  · rcases hv : verifyTransaction L vm t r with e | ⟨b, cs'⟩ <;>
      simp only [checkBeforePush, hv, Bool.false_eq_true, if_false, except_ok_bind, except_pure,
        except_error_bind] at h
    · cases h
    · obtain ⟨hacc, -, rfl, hcs⟩ := verifyTransaction_eq_ok hv
      split at h
      case isTrue hc =>
        cases h
        simp only [Bool.and_eq_true, Bool.not_eq_true'] at hc
        refine ⟨hcs, fullyVerified_of_kindRules hc.1 ?_⟩
        simpa [hc.2] using hacc.kind_rules
      case isFalse => cases h
  · cases h

/-- A call leaves the VM as it was, or pushes the checksum of a fully verified transaction under
its ID. -/
theorem afterCheck_cases (L : Ledger) (skipTxChecks : Bool) (vm : VM) (t : Transaction)
    (r : Option Nat) :
    afterCheck L skipTxChecks vm (t, r) = vm ∨ ∃ cs, transactionChecksum L t = .ok cs ∧
      FullyVerified L vm t ∧ afterCheck L skipTxChecks vm (t, r) = vm.pushPartiallyVerified t.id cs := by
  unfold afterCheck
  rw [checkTransaction_run_eq]
  rcases h : checkBeforePush L skipTxChecks t r vm with e | _ | cs
  · exact .inl rfl
  · exact .inl rfl
  · exact .inr ⟨cs, (checkBeforePush_eq_some h).1, (checkBeforePush_eq_some h).2, rfl⟩

/-- **A second call pushes nothing**: without the feature, checking the same transaction with the
same rejected ID twice leaves the VM as one check does. A second call fails with the state kept,
or finds the transaction a fee or its ID in the cache, where the first call put it. -/
theorem afterCheck_afterCheck (L : Ledger) (vm : VM) (t : Transaction) (r : Option Nat) :
    afterCheck L false (afterCheck L false vm (t, r)) (t, r) = afterCheck L false vm (t, r) := by
  rw [afterCheck_eq L vm]
  rcases h : verifyTransaction L vm t r with e | ⟨b, cs⟩
  · rw [afterCheck_eq, h]
  · obtain ⟨-, -, rfl, -⟩ := verifyTransaction_eq_ok h
    dsimp only
    by_cases hc : (!t.isFee && !(vm.partiallyVerifiedTransactions.peek t.id).isSome) = true
    · rw [if_pos hc, afterCheck_eq]
      rcases h' : verifyTransaction L (vm.pushPartiallyVerified t.id cs) t r with e' | ⟨b', cs'⟩
      · rfl
      · obtain ⟨-, -, rfl, -⟩ := verifyTransaction_eq_ok h'
        simp [VM.pushPartiallyVerified]
    · rw [if_neg hc, afterCheck_eq, h]
      exact if_neg hc

theorem cacheVerified_mono {calls calls' : List (Transaction × Option Nat)}
    (h : CacheVerified L vm calls) (hsub : ∀ call ∈ calls, call ∈ calls') :
    CacheVerified L vm calls' := fun e he =>
  let ⟨t, r, hm, hid, hcs, hv⟩ := h e he
  ⟨t, r, hsub _ hm, hid, hcs, hv⟩

/-- A push of the checksum of a fully verified transaction of `calls` keeps the cache verified. -/
theorem cacheVerified_push {calls : List (Transaction × Option Nat)} {cs : Nat}
    (h : CacheVerified L vm calls) (hm : (t, r) ∈ calls) (hcs : transactionChecksum L t = .ok cs)
    (hv : FullyVerified L vm t) : CacheVerified L (vm.pushPartiallyVerified t.id cs) calls := by
  intro e he
  rcases LruCache.mem_push he with rfl | he
  · exact ⟨t, r, hm, rfl, hcs, fullyVerified_pushPartiallyVerified.2 hv⟩
  · obtain ⟨t', r', hm', hid, hcs', hv'⟩ := h e he
    exact ⟨t', r', hm', hid, hcs', fullyVerified_pushPartiallyVerified.2 hv'⟩

/-- **One call keeps the cache verified.** -/
theorem cacheVerified_afterCheck {calls : List (Transaction × Option Nat)}
    (h : CacheVerified L vm calls) (call : Transaction × Option Nat) (skipTxChecks : Bool) :
    CacheVerified L (afterCheck L skipTxChecks vm call) (calls ++ [call]) := by
  obtain ⟨t, r⟩ := call
  have h' : CacheVerified L vm (calls ++ [(t, r)]) :=
    cacheVerified_mono h fun _ hc => List.mem_append_left _ hc
  rcases afterCheck_cases L skipTxChecks vm t r with he | ⟨cs, hcs, hv, he⟩ <;> rw [he]
  · exact h'
  · exact cacheVerified_push h' (List.mem_append_right _ (List.mem_singleton_self _)) hcs hv

theorem cacheVerified_afterChecks {calls : List (Transaction × Option Nat)}
    (h : CacheVerified L vm calls) (rest : List (Transaction × Option Nat)) (skipTxChecks : Bool) :
    CacheVerified L (afterChecks L skipTxChecks vm rest) (calls ++ rest) := by
  induction rest generalizing vm calls with
  | nil => simpa [afterChecks] using h
  | cons call rest ih =>
    simpa [afterChecks] using ih (cacheVerified_afterCheck h call skipTxChecks)

/-- **Every entry of the cache was fully verified**: over any sequence of calls from an empty
cache, in either build, each entry `id ↦ cs` comes from a call on a transaction with ID `id` and
checksum `cs` that passed its full verification. -/
theorem afterChecks_cacheVerified (h : vm.partiallyVerifiedTransactions.entries = [])
    (calls : List (Transaction × Option Nat)) (skipTxChecks : Bool) :
    CacheVerified L (afterChecks L skipTxChecks vm calls) calls := by
  simpa using @cacheVerified_afterChecks L vm [] (by simp [CacheVerified, h]) calls skipTxChecks

end Calls

theorem afterChecks_cacheVerified_sample : sampleVM.partiallyVerifiedTransactions.entries = [] ∧
    CacheVerified sampleLedger (afterChecks sampleLedger false sampleVM
      [(.execute 7 (sampleExecution 1) none, none), (.execute 7 (sampleExecution 2) none, none)])
      [(.execute 7 (sampleExecution 1) none, none), (.execute 7 (sampleExecution 2) none, none)] :=
  ⟨rfl, afterChecks_cacheVerified rfl _ false⟩

/-- The cache is keyed on the transaction ID alone: an execution verified with proof `1` is
cached, and an execution of the same ID whose proof `2` fails verification, and whose checksum
differs, is then accepted without verification. -/
theorem checkTransaction_same_id_other_proof :
    verifyExecution sampleLedger.network sampleProcess (sampleExecution 2) = .error "invalid proof" ∧
    transactionChecksum sampleLedger (.execute 7 (sampleExecution 1) none) = .ok 1 ∧
    transactionChecksum sampleLedger (.execute 7 (sampleExecution 2) none) = .ok 2 ∧
    (checkTransaction sampleLedger false (.execute 7 (sampleExecution 1) none) none).run sampleVM =
      .ok () (sampleVM.pushPartiallyVerified 7 1) ∧
    (checkTransaction sampleLedger false (.execute 7 (sampleExecution 2) none) none).run
      (sampleVM.pushPartiallyVerified 7 1) = .ok () (sampleVM.pushPartiallyVerified 7 1) :=
  ⟨rfl, rfl, rfl, rfl, rfl⟩

end SnarkVM.Synthesizer
