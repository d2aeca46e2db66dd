import SnarkVM.Synthesizer.CheckTransactions

/-!
`VM::check_transactions` in the default build (`synthesizer/src/vm/verify.rs`). There
`cfg_iter!` is rayon's `par_iter`, so the calls of `check_transaction` on a batch run in any order
or at once, and `try_for_each` returns `Ok(())` once every call passed, or the error of one failed
call once the calls it started have ended; calls not yet started may be skipped. Which calls run,
and which error comes back, depends on the schedule.

A call of `check_transaction` reads the cache once, at `peek`, and writes it once, at `push`; the
stores, the process and the restrictions it also reads are not written while
`check_transactions` runs. A call is therefore two events: `check`, its checks against the VM as
it is then (`checkBeforePush`), and `push`, the write they asked for. A schedule of a batch is a
sequence of these events, each call's push after its check. The batches run one after the other,
and the `?` after each one stops at the first that ends in an `Err`.

Main results, over every schedule: the run of the build with `serial` is one of them
(`checkTransactions_serial_schedule`); `Ok(())` means every transaction passed its checks, and an
`Err` is the wrapped error of a transaction of some batch, after every earlier batch passed in
full, with no later batch run (`checkTransactions_batched_until_failure`); and the cache holds
only fully verified transactions (`parallelCheckTransactions_cacheVerified`).
-/

namespace SnarkVM.Synthesizer

/-- Where one call of `check_transaction` in a batch stands: not started, checked with a push
still to make, or ended with `Ok` or with its wrapped error. -/
inductive CheckState
  | idle
  | pushing (checksum : Nat)
  | passed
  | failed (error : String)
  deriving DecidableEq, Repr

/-- An event of a batch: the checks of its `i`-th call, or that call's push. -/
inductive CheckEvent
  | check (i : Nat)
  | push (i : Nat)
  deriving DecidableEq, Repr

/-- A batch being checked: the VM, and where each of its calls stands. -/
structure BatchState where
  vm : VM
  checks : List CheckState

/-- Where a call stands after its checks: a push to make, `Ok`, or the error `map_err` wraps. -/
def checkStateOf : Except String (Option Nat) → CheckState
  | .ok none => .passed
  | .ok (some cs) => .pushing cs
  | .error e => .failed (listedError e)

/-- One event of a batch: a `check` of a call not started runs its checks against the VM as it
is, and a `push` of a call whose checks asked for one writes its checksum; no other event can
happen. -/
def batchStep (L : Ledger) (skipTxChecks : Bool) (batch : List (Transaction × Option Nat))
    (s : BatchState) : CheckEvent → Option BatchState
  | .check i =>
    match batch[i]?, s.checks[i]? with
    | some call, some .idle =>
      some ⟨s.vm, s.checks.set i (checkStateOf (checkBeforePush L skipTxChecks call.1 call.2 s.vm))⟩
    | _, _ => none
  | .push i =>
    match batch[i]?, s.checks[i]? with
    | some call, some (.pushing cs) =>
      some ⟨s.vm.pushPartiallyVerified call.1.id cs, s.checks.set i .passed⟩
    | _, _ => none

/-- A schedule of events from `s`, or `none` if one of them cannot happen. -/
def runSchedule (L : Ledger) (skipTxChecks : Bool) (batch : List (Transaction × Option Nat)) :
    BatchState → List CheckEvent → Option BatchState
  | s, [] => some s
  | s, ev :: evs =>
    (batchStep L skipTxChecks batch s ev).bind fun s₁ => runSchedule L skipTxChecks batch s₁ evs

/-- How `try_for_each` ends a batch: `Ok(())` once every call passed; the error of a failed call
once no call that started has a push left to make. -/
def BatchEnds (s : BatchState) : Except String Unit → Prop
  | .ok () => ∀ c ∈ s.checks, c = .passed
  | .error e => .failed e ∈ s.checks ∧ ∀ cs, .pushing cs ∉ s.checks

/-- A run of a batch from `vm`: a schedule from no call started reaches `s`, where
`try_for_each` returns `res`. -/
def BatchRuns (L : Ledger) (skipTxChecks : Bool) (batch : List (Transaction × Option Nat))
    (vm : VM) (s : BatchState) (res : Except String Unit) : Prop :=
  (∃ evs, runSchedule L skipTxChecks batch ⟨vm, List.replicate batch.length .idle⟩ evs = some s) ∧
    BatchEnds s res

/-- The batches run one after the other from `vm`, each in some schedule, until one returns an
`Err`: `states` are where the batches that ran ended, and `res` and `vm'` what
`check_transactions` returns and leaves. -/
inductive BatchesRun (L : Ledger) (skipTxChecks : Bool) :
    List (List (Transaction × Option Nat)) → VM → List BatchState → Except String Unit → VM →
      Prop
  | nil (vm : VM) : BatchesRun L skipTxChecks [] vm [] (.ok ()) vm
  | ok {batch batches vm s states res vm'} : BatchRuns L skipTxChecks batch vm s (.ok ()) →
      BatchesRun L skipTxChecks batches s.vm states res vm' →
      BatchesRun L skipTxChecks (batch :: batches) vm (s :: states) res vm'
  | error {batch batches vm s e} : BatchRuns L skipTxChecks batch vm s (.error e) →
      BatchesRun L skipTxChecks (batch :: batches) vm [s] (.error e) s.vm

/-- `VM::check_transactions` in the default build: the batches of `transactionBatches`, each in
some schedule. -/
def ParallelCheckTransactions (L : Ledger) (skipTxChecks : Bool)
    (transactions : List (Transaction × Option Nat)) (vm : VM) (states : List BatchState)
    (res : Except String Unit) (vm' : VM) : Prop :=
  BatchesRun L skipTxChecks (transactionBatches transactions) vm states res vm'

/-! ### What a call's state says of it -/

/-- The checks of `check_transaction` pass on `call` against the stores of `vm`, with the cache in
some state. -/
def CheckPasses (L : Ledger) (skipTxChecks : Bool) (vm : VM) (call : Transaction × Option Nat) :
    Prop :=
  ∃ cache p, checkBeforePush L skipTxChecks call.1 call.2
    { vm with partiallyVerifiedTransactions := cache } = .ok p

/-- The checks of `check_transaction` fail on `call` with `cause` against the stores of `vm`, with
the cache in some state. -/
def CheckFails (L : Ledger) (skipTxChecks : Bool) (vm : VM) (call : Transaction × Option Nat)
    (cause : String) : Prop :=
  ∃ cache, checkBeforePush L skipTxChecks call.1 call.2
    { vm with partiallyVerifiedTransactions := cache } = .error cause

/-- What a call's state says of its checks against the stores of `vm`, where its batch started. -/
def CheckRan (L : Ledger) (skipTxChecks : Bool) (vm : VM) (call : Transaction × Option Nat) :
    CheckState → Prop
  | .idle => True
  | .pushing cs => ∃ cache, checkBeforePush L skipTxChecks call.1 call.2
      { vm with partiallyVerifiedTransactions := cache } = .ok (some cs)
  | .passed => CheckPasses L skipTxChecks vm call
  | .failed e => ∃ cause, CheckFails L skipTxChecks vm call cause ∧ e = listedError cause

/-- The invariant of a batch run from `vm`: a state for each call, only the cache written, and
each call's state true of it. -/
structure BatchInv (L : Ledger) (skipTxChecks : Bool) (batch : List (Transaction × Option Nat))
    (vm : VM) (s : BatchState) : Prop where
  length_checks : s.checks.length = batch.length
  only_cache : ∃ cache, s.vm = { vm with partiallyVerifiedTransactions := cache }
  ran : ∀ {i : Nat} {call : Transaction × Option Nat} {c : CheckState}, batch[i]? = some call →
    s.checks[i]? = some c → CheckRan L skipTxChecks vm call c

section Batch

variable {L : Ledger} {skipTxChecks : Bool} {batch : List (Transaction × Option Nat)} {vm : VM}
  {s s' : BatchState}

/-- What one event can do: check a call not started, or make the push a call's checks asked
for. -/
theorem batchStep_eq_some {ev : CheckEvent} (h : batchStep L skipTxChecks batch s ev = some s') :
    ∃ i call, batch[i]? = some call ∧
      (s.checks[i]? = some .idle ∧ s' = ⟨s.vm, s.checks.set i
          (checkStateOf (checkBeforePush L skipTxChecks call.1 call.2 s.vm))⟩ ∨
        ∃ cs, s.checks[i]? = some (.pushing cs) ∧
          s' = ⟨s.vm.pushPartiallyVerified call.1.id cs, s.checks.set i .passed⟩) := by
  cases ev with
  | check i =>
    simp only [batchStep] at h
    split at h
    · cases h
      exact ⟨i, _, ‹_›, .inl ⟨‹_›, rfl⟩⟩
    · cases h
  | push i =>
    simp only [batchStep] at h
    split at h
    · cases h
      exact ⟨i, _, ‹_›, .inr ⟨_, ‹_›, rfl⟩⟩
    · cases h

/-- An invariant every event keeps holds after every schedule. -/
theorem runSchedule_inv (I : BatchState → Prop)
    (hs : ∀ {s s' ev}, I s → batchStep L skipTxChecks batch s ev = some s' → I s') :
    ∀ {evs s}, I s → runSchedule L skipTxChecks batch s evs = some s' → I s'
  | [], _, hi, h => Option.some.inj h ▸ hi
  | _ :: _, _, hi, h =>
    let ⟨_, h₁, h⟩ := Option.bind_eq_some.1 h
    runSchedule_inv I hs (hs hi h₁) h

theorem getElem?_set_eq_some {α : Type} {l : List α} {i j : Nat} {a c : α}
    (h : (l.set i a)[j]? = some c) : i = j ∧ a = c ∨ l[j]? = some c := by
  rw [List.getElem?_set] at h
  split_ifs at h with hij
  · exact .inl ⟨hij, Option.some.inj h⟩
  · exact .inr h

theorem checkRan_checkStateOf {call : Transaction × Option Nat} {cache : LruCache Nat Nat} :
    CheckRan L skipTxChecks vm call (checkStateOf (checkBeforePush L skipTxChecks call.1 call.2
      { vm with partiallyVerifiedTransactions := cache })) := by
  rcases h : checkBeforePush L skipTxChecks call.1 call.2
    { vm with partiallyVerifiedTransactions := cache } with e | _ | cs
  · exact ⟨e, ⟨cache, h⟩, rfl⟩
  · exact ⟨cache, none, h⟩
  · exact ⟨cache, h⟩

/-- Every event keeps the invariant: a check records what the checks did against the stores of
`vm`, and a push writes only the cache and ends a call whose checks passed. -/
theorem BatchInv.step {ev : CheckEvent} (hi : BatchInv L skipTxChecks batch vm s)
    (h : batchStep L skipTxChecks batch s ev = some s') : BatchInv L skipTxChecks batch vm s' := by
  obtain ⟨cache, hvm⟩ := hi.only_cache
  obtain ⟨i, call, hcall, ⟨-, rfl⟩ | ⟨cs, hpush, rfl⟩⟩ := batchStep_eq_some h
  · refine ⟨by rw [List.length_set, hi.length_checks], ⟨cache, hvm⟩, fun hj hc => ?_⟩
    rcases getElem?_set_eq_some hc with ⟨rfl, rfl⟩ | hc
    · rw [hcall] at hj
      cases hj
      rw [hvm]
      exact checkRan_checkStateOf
    · exact hi.ran hj hc
  · refine ⟨by rw [List.length_set, hi.length_checks], ⟨_, by rw [hvm]; rfl⟩, fun hj hc => ?_⟩
    rcases getElem?_set_eq_some hc with ⟨rfl, rfl⟩ | hc
    · rw [hcall] at hj
      cases hj
      obtain ⟨cache', h'⟩ := hi.ran hcall hpush
      exact ⟨cache', _, h'⟩
    · exact hi.ran hj hc

theorem batchInv_init :
    BatchInv L skipTxChecks batch vm ⟨vm, List.replicate batch.length .idle⟩ := by
  refine ⟨List.length_replicate _ _, ⟨vm.partiallyVerifiedTransactions, rfl⟩, fun _ hc => ?_⟩
  rw [List.getElem?_replicate] at hc
  split_ifs at hc
  cases hc
  trivial

variable {res : Except String Unit}

/-- A batch keeps the cache verified: each push is the checksum of a call of the batch whose
checks passed on a miss, so that transaction was fully verified. -/
theorem BatchRuns.cacheVerified {calls : List (Transaction × Option Nat)}
    (hv : CacheVerified L vm calls) (h : BatchRuns L skipTxChecks batch vm s res) :
    CacheVerified L s.vm (calls ++ batch) := by
  obtain ⟨⟨_, hrun⟩, -⟩ := h
  refine (runSchedule_inv (fun s => BatchInv L skipTxChecks batch vm s ∧
    CacheVerified L s.vm (calls ++ batch)) (fun ⟨hi, hc⟩ hs => ⟨hi.step hs, ?_⟩)
    ⟨batchInv_init, cacheVerified_mono hv fun _ => List.mem_append_left _⟩ hrun).2
  obtain ⟨i, ⟨t, r⟩, hcall, ⟨-, rfl⟩ | ⟨cs, hpush, rfl⟩⟩ := batchStep_eq_some hs
  · exact hc
  · obtain ⟨cache, hvm⟩ := hi.only_cache
    obtain ⟨cache', h'⟩ := hi.ran hcall hpush
    obtain ⟨hcs, hfv⟩ := checkBeforePush_eq_some h'
    refine cacheVerified_push hc (List.mem_append_right _ (List.mem_iff_getElem?.2 ⟨i, hcall⟩))
      hcs ?_
    rw [hvm]
    exact fullyVerified_withCache.2 (fullyVerified_withCache.1 hfv)

end Batch

/-! ### The batches in turn -/

section Batches

variable {L : Ledger} {skipTxChecks : Bool} {batches : List (List (Transaction × Option Nat))}
  {vm vm' : VM} {states : List BatchState} {res : Except String Unit}

/-- The run keeps the cache verified, whatever it returns. -/
theorem BatchesRun.cacheVerified {calls : List (Transaction × Option Nat)}
    (hv : CacheVerified L vm calls) (h : BatchesRun L skipTxChecks batches vm states res vm') :
    CacheVerified L vm' (calls ++ batches.flatten) := by
  induction h generalizing calls with
  | nil => simpa using hv
  | ok hb _ ih => simpa using ih (hb.cacheVerified hv)
  | error hb =>
    exact cacheVerified_mono (hb.cacheVerified hv) fun call hc => by
      rcases List.mem_append.1 hc with hc | hc
      · exact List.mem_append_left _ hc
      · exact List.mem_append_right _ (List.mem_append_left _ hc)

end Batches

/-! ### The build with `serial` is one schedule -/

section Serial

variable {L : Ledger} {skipTxChecks : Bool} {batch : List (Transaction × Option Nat)}
  {vm vm₁ : VM} {checks : List CheckState} {j : Nat} {call : Transaction × Option Nat}

theorem runSchedule_append {s s₁ s₂ : BatchState} :
    ∀ {evs₁ : List CheckEvent} {evs₂ : List CheckEvent},
      runSchedule L skipTxChecks batch s evs₁ = some s₁ →
      runSchedule L skipTxChecks batch s₁ evs₂ = some s₂ →
      runSchedule L skipTxChecks batch s (evs₁ ++ evs₂) = some s₂ := by
  intro evs₁
  induction evs₁ generalizing s with
  | nil => intro _ h₁ h₂; cases h₁; exact h₂
  | cons ev evs ih =>
    intro _ h₁ h₂
    obtain ⟨s', hs', h₁⟩ := Option.bind_eq_some.1 h₁
    exact Option.bind_eq_some.2 ⟨s', hs', ih h₁ h₂⟩

/-- A call that passes in the build with `serial` is a `check`, then a `push` if its checks asked
for one. -/
theorem runSchedule_of_listed_ok (hj : batch[j]? = some call) (hidle : checks[j]? = some .idle)
    (h : (checkListedTransaction L skipTxChecks call).run vm = .ok () vm₁) :
    ∃ evs, runSchedule L skipTxChecks batch ⟨vm, checks⟩ evs =
      some ⟨vm₁, checks.set j .passed⟩ := by
  rw [checkListedTransaction, estate_adaptExcept_eq_ok, checkTransaction_run_eq] at h
  have hlt : j < checks.length := (List.getElem?_eq_some_iff.1 hidle).1
  rcases hc : checkBeforePush L skipTxChecks call.1 call.2 vm with e | _ | cs <;>
    rw [hc] at h <;> cases h
  · exact ⟨[.check j], by simp [runSchedule, batchStep, hj, hidle, hc, checkStateOf]⟩
  · exact ⟨[.check j, .push j], by
      simp [runSchedule, batchStep, hj, hidle, hc, checkStateOf, hlt]⟩

/-- A call that fails in the build with `serial` is a `check` that records its error. -/
theorem runSchedule_of_listed_error {e : String} (hj : batch[j]? = some call)
    (hidle : checks[j]? = some .idle)
    (h : (checkListedTransaction L skipTxChecks call).run vm = .error e vm₁) :
    vm₁ = vm ∧ runSchedule L skipTxChecks batch ⟨vm, checks⟩ [.check j] =
      some ⟨vm, checks.set j (.failed e)⟩ := by
  obtain ⟨cause, hcause, rfl⟩ := checkListedTransaction_eq_error.1 h
  rw [checkTransaction_run_eq] at hcause
  rcases hc : checkBeforePush L skipTxChecks call.1 call.2 vm with e | _ | cs <;>
    rw [hc] at hcause <;> cases hcause
  exact ⟨rfl, by simp [runSchedule, batchStep, hj, hidle, hc, checkStateOf]⟩

theorem getElem?_append_of_length {α : Type} {pre l : List α} {x : α} {n : Nat}
    (h : pre.length = n) : (pre ++ x :: l)[n]? = some x := by
  rw [← h, List.getElem?_append_right le_rfl, Nat.sub_self, List.getElem?_cons_zero]

theorem replicate_set_length {α : Type} (n : Nat) (a b c : α) (l : List α) :
    (List.replicate n a ++ b :: l).set n c = List.replicate n a ++ c :: l := by
  rw [List.set_append_right _ _ (by simp)]
  simp

/-- The calls of `rest` pass in turn in the build with `serial`: a schedule checks them in their
order, after the calls of `pre`, and leaves them passed. -/
theorem runSchedule_of_passesAll {post : List (Transaction × Option Nat)} :
    ∀ {rest pre : List (Transaction × Option Nat)} {vm vm' : VM}, batch = pre ++ rest ++ post →
      PassesAll (checkListedTransaction L skipTxChecks) rest vm vm' →
      ∃ evs, runSchedule L skipTxChecks batch
        ⟨vm, List.replicate pre.length .passed ++ List.replicate (rest.length + post.length) .idle⟩
        evs = some ⟨vm', List.replicate (pre.length + rest.length) .passed ++
          List.replicate post.length .idle⟩
  | [], pre, vm, vm', _, h => ⟨[], by rw [passesAll_nil.1 h]; simp [runSchedule]⟩
  | call :: rest, pre, vm, vm', hb, ⟨vm₁, h₁, h⟩ => by
    have hj : batch[pre.length]? = some call := by
      rw [hb, List.append_assoc, List.cons_append]
      exact getElem?_append_of_length rfl
    have hlen : (call :: rest).length + post.length = (rest.length + post.length) + 1 := by
      simp only [List.length_cons]; omega
    rw [hlen, List.replicate_succ]
    obtain ⟨evs₁, h₁⟩ := runSchedule_of_listed_ok hj
      (getElem?_append_of_length (List.length_replicate _ _)) h₁
    obtain ⟨evs₂, h₂⟩ := @runSchedule_of_passesAll post rest (pre ++ [call]) vm₁ vm' (by simp [hb]) h
    have e₁ : List.replicate (pre ++ [call]).length CheckState.passed =
        List.replicate pre.length .passed ++ [.passed] := by
      rw [List.length_append, List.length_singleton, List.replicate_succ']
    have e₂ : (pre ++ [call]).length + rest.length = pre.length + (call :: rest).length := by
      simp only [List.length_append, List.length_cons, List.length_nil]; omega
    rw [e₁, e₂, List.append_assoc, List.singleton_append] at h₂
    exact ⟨evs₁ ++ evs₂, runSchedule_append h₁ (by rwa [replicate_set_length])⟩

/-- A batch that passes in the build with `serial` is a schedule that returns `Ok(())`. -/
theorem batchRuns_of_serial_ok
    (h : PassesAll (checkListedTransaction L skipTxChecks) batch vm vm₁) :
    BatchRuns L skipTxChecks batch vm ⟨vm₁, List.replicate batch.length .passed⟩ (.ok ()) := by
  obtain ⟨evs, hrun⟩ := @runSchedule_of_passesAll L skipTxChecks batch [] batch [] vm vm₁
    (by simp) h
  refine ⟨⟨evs, by simpa using hrun⟩, fun c hc => List.eq_of_mem_replicate hc⟩

/-- A batch that fails in the build with `serial` is a schedule that returns the same `Err` and
leaves the same VM. -/
theorem batchRuns_of_serial_error {e : String}
    (h : (batch.forM (checkListedTransaction L skipTxChecks)).run vm = .error e vm₁) :
    ∃ s, s.vm = vm₁ ∧ BatchRuns L skipTxChecks batch vm s (.error e) := by
  obtain ⟨pre, call, post, vm₂, hb, hpre, hcall⟩ := estate_forM_eq_error.1 h
  obtain ⟨evs₁, h₁⟩ := @runSchedule_of_passesAll L skipTxChecks batch (call :: post) pre [] vm vm₂
    (by simp [hb]) hpre
  have h₁' : runSchedule L skipTxChecks batch ⟨vm, List.replicate batch.length .idle⟩ evs₁ =
      some ⟨vm₂, List.replicate pre.length .passed ++ .idle :: List.replicate post.length .idle⟩ := by
    simpa [hb, List.replicate_succ] using h₁
  have hidle : (List.replicate pre.length CheckState.passed ++
      .idle :: List.replicate post.length .idle)[pre.length]? = some .idle :=
    getElem?_append_of_length (List.length_replicate _ _)
  have hj : batch[pre.length]? = some call := by rw [hb]; exact getElem?_append_of_length rfl
  obtain ⟨rfl, h₂⟩ := runSchedule_of_listed_error hj hidle hcall
  refine ⟨_, rfl, ⟨evs₁ ++ [.check pre.length], runSchedule_append h₁' h₂⟩, ?_, fun cs hc => ?_⟩
  · simp [replicate_set_length]
  · simp [replicate_set_length, List.mem_replicate] at hc

/-- Batches that pass in the build with `serial` can run first in a run of the default build. -/
theorem BatchesRun.of_serial_batches {rest : List (List (Transaction × Option Nat))}
    {vm' : VM} {states : List BatchState} {res : Except String Unit}
    (hrest : BatchesRun L skipTxChecks rest vm₁ states res vm') :
    ∀ {batches vm}, PassesAll (fun batch => batch.forM (checkListedTransaction L skipTxChecks))
      batches vm vm₁ → ∃ states', BatchesRun L skipTxChecks (batches ++ rest) vm states' res vm'
  | [], _, h => ⟨states, passesAll_nil.1 h ▸ hrest⟩
  | _ :: _, _, ⟨_, hb, h⟩ =>
    let ⟨states', hrun⟩ := BatchesRun.of_serial_batches hrest h
    ⟨_ :: states', .ok (batchRuns_of_serial_ok (estate_forM_eq_ok.1 hb)) hrun⟩

theorem parallelCheckTransactions_of_serial_ok {transactions : List (Transaction × Option Nat)}
    {vm' : VM} (h : (checkTransactions L skipTxChecks transactions).run vm = .ok () vm') :
    ∃ states, ParallelCheckTransactions L skipTxChecks transactions vm states (.ok ()) vm' := by
  simpa using (BatchesRun.nil vm').of_serial_batches (estate_forM_eq_ok.1 h)

theorem parallelCheckTransactions_of_serial_error {transactions : List (Transaction × Option Nat)}
    {e : String} {vm' : VM}
    (h : (checkTransactions L skipTxChecks transactions).run vm = .error e vm') :
    ∃ states, ParallelCheckTransactions L skipTxChecks transactions vm states (.error e) vm' := by
  obtain ⟨before, batch, after, vm₂, hb, hbefore, hbatch⟩ := estate_forM_eq_error.1 h
  obtain ⟨s, rfl, hs⟩ := batchRuns_of_serial_error hbatch
  obtain ⟨states, hrun⟩ :=
    (@BatchesRun.error L skipTxChecks batch after vm₂ s e hs).of_serial_batches hbefore
  exact ⟨states, by rw [ParallelCheckTransactions, hb]; exact hrun⟩

end Serial

/-! ### `check_transactions` over every schedule -/

/-- **The build with `serial` is one schedule of the default build.** Whatever
`check_transactions` returns and leaves when it checks each batch in its order, a schedule of the
default build returns and leaves too. -/
theorem checkTransactions_serial_schedule (L : Ledger) (skipTxChecks : Bool)
    (transactions : List (Transaction × Option Nat)) (vm : VM) :
    match (checkTransactions L skipTxChecks transactions).run vm with
    | .ok () vm' =>
      ∃ states, ParallelCheckTransactions L skipTxChecks transactions vm states (.ok ()) vm'
    | .error e vm' =>
      ∃ states, ParallelCheckTransactions L skipTxChecks transactions vm states (.error e) vm' := by
  rcases h : (checkTransactions L skipTxChecks transactions).run vm with ⟨⟨⟩, vm'⟩ | ⟨e, vm'⟩
  · exact parallelCheckTransactions_of_serial_ok h
  · exact parallelCheckTransactions_of_serial_error h

section Cache

variable {L : Ledger} {skipTxChecks : Bool} {transactions : List (Transaction × Option Nat)}
  {vm vm' : VM} {states : List BatchState} {res : Except String Unit}

/-- **`check_transactions` keeps the cache verified, in every schedule.** If every entry of the
cache came from one of `calls` and was fully verified, then after any run of the default build,
whether it returns `Ok` or `Err`, every entry comes from `calls` or from the list, on a
transaction of that ID and checksum that was fully verified. -/
theorem parallelCheckTransactions_cacheVerified {calls : List (Transaction × Option Nat)}
    (hv : CacheVerified L vm calls)
    (h : ParallelCheckTransactions L skipTxChecks transactions vm states res vm') :
    CacheVerified L vm' (calls ++ transactions) :=
  cacheVerified_mono (BatchesRun.cacheVerified hv h) fun call hc => by
    rcases List.mem_append.1 hc with hc | hc
    · exact List.mem_append_left _ hc
    · exact List.mem_append_right _ ((flatten_transactionBatches_perm transactions).subset hc)

end Cache

theorem parallelCheckTransactions_cacheVerified_sample :
    CacheVerified sampleLedger sampleVM [] ∧
    ParallelCheckTransactions sampleLedger false [(.execute 7 (sampleExecution 1) none, none)]
      sampleVM [⟨sampleVM.pushPartiallyVerified 7 1, [.passed]⟩] (.ok ())
      (sampleVM.pushPartiallyVerified 7 1) ∧
    CacheVerified sampleLedger (sampleVM.pushPartiallyVerified 7 1)
      ([] ++ [(.execute 7 (sampleExecution 1) none, none)]) :=
  have hv : CacheVerified sampleLedger sampleVM [] := fun _ he => absurd he (List.not_mem_nil _)
  have hrun : ParallelCheckTransactions sampleLedger false
      [(.execute 7 (sampleExecution 1) none, none)] sampleVM
      [⟨sampleVM.pushPartiallyVerified 7 1, [.passed]⟩] (.ok ())
      (sampleVM.pushPartiallyVerified 7 1) :=
    BatchesRun.ok ⟨⟨[.check 0, .push 0], rfl⟩, fun _ hc => List.eq_of_mem_singleton hc⟩
      (BatchesRun.nil _)
  ⟨hv, hrun, parallelCheckTransactions_cacheVerified hv hrun⟩

end SnarkVM.Synthesizer
