import Mathlib.Data.List.Basic

/-!
# Cancellation sources and tokens

Source pin: src/src/taskcancellation.h:27-97. A `CCancellationSource` holds an atomic
flag that `Cancel()` sets and nothing clears. A `CCancellationToken` holds the sources it
is attached to: the one source of `GetToken()`, or the two lists of `JoinToken`
concatenated, duplicates kept. `IsCanceled()` asks whether any of them is canceled.

Sources are told apart by their address (`SourceId`). The state is the flag of every
source, all clear as `Make()` leaves them (`fresh`); the one transition is `Cancel()`,
an atomic store, so any interleaving of calls from several threads is a sequence of them.
Tokens are immutable values.

* `sourceIsCanceled_run`: after a sequence of `Cancel()` calls a source is canceled
  exactly when the sequence names it (one step lemma, then induction on the sequence);
* `isCanceled_build`: a token built from `GetToken()` tokens by nested `JoinToken` is
  canceled exactly when one of its leaves is (induction on the nesting);
* `isCanceled_run`: the two together at every point of the sequence, with the
  `JoinToken` law and monotonicity;
* `run_eq_of_same_sources`, `isCanceled_cancel_of_not_mem`: the order and repetition of
  the calls do not matter, and a call on another source leaves a token alone.
-/

namespace BitcoinSv.Task

/-- A `CCancellationSource`, by address. -/
abbrev SourceId := Nat

/-- The `mCanceled` flag of every source. -/
structure Sources where
  canceled : SourceId → Bool

/-- Every source as `Make()` leaves it: `mCanceled = false`. -/
def fresh : Sources := ⟨fun _ => false⟩

/-- `CCancellationSource::Cancel()`: `mCanceled = true`. -/
def cancel (h : Sources) (s : SourceId) : Sources := ⟨Function.update h.canceled s true⟩

/-- `CCancellationSource::IsCanceled()`. -/
def sourceIsCanceled (h : Sources) (s : SourceId) : Bool := h.canceled s

/-- A `CCancellationToken`: the sources in `mSource`. -/
structure CCancellationToken where
  mSource : List SourceId

/-- `GetToken()`: a token attached to this source alone. -/
def getToken (s : SourceId) : CCancellationToken := ⟨[s]⟩

/-- `JoinToken(token1, token2)`: the sources of `token1`, then those of `token2`. -/
def joinToken (token1 token2 : CCancellationToken) : CCancellationToken :=
  ⟨token1.mSource ++ token2.mSource⟩

/-- `CCancellationToken::IsCanceled()`: `std::any_of` over the sources. -/
def isCanceled (h : Sources) (t : CCancellationToken) : Bool := t.mSource.any (sourceIsCanceled h)

/-- The flags after a sequence of `Cancel()` calls, from fresh sources. -/
def run (calls : List SourceId) : Sources := calls.foldl cancel fresh

/-! ## Sources -/

@[simp] theorem sourceIsCanceled_fresh (s : SourceId) : sourceIsCanceled fresh s = false := rfl

/-- One step: `Cancel()` sets its own source and no other. -/
@[simp] theorem sourceIsCanceled_cancel (h : Sources) (c s : SourceId) :
    sourceIsCanceled (cancel h c) s = (s == c || sourceIsCanceled h s) := by
  by_cases same : s = c
  · simp [sourceIsCanceled, cancel, same]
  · simp [sourceIsCanceled, cancel, same, Function.update_noteq]

theorem sourceIsCanceled_foldl (calls : List SourceId) (h : Sources) (s : SourceId) :
    sourceIsCanceled (calls.foldl cancel h) s = true ↔ sourceIsCanceled h s = true ∨ s ∈ calls := by
  induction calls generalizing h with
  | nil => simp
  | cons c calls ih =>
    rw [List.foldl_cons, ih, sourceIsCanceled_cancel]
    simp only [Bool.or_eq_true, beq_iff_eq, List.mem_cons]
    tauto

/-- The run: a source is canceled exactly when `Cancel()` was called on it. -/
theorem sourceIsCanceled_run (calls : List SourceId) (s : SourceId) :
    sourceIsCanceled (run calls) s = true ↔ s ∈ calls := by
  simp [run, sourceIsCanceled_foldl]

/-! ## Tokens -/

theorem isCanceled_joinToken (h : Sources) (token1 token2 : CCancellationToken) :
    isCanceled h (joinToken token1 token2) = (isCanceled h token1 || isCanceled h token2) :=
  List.any_append

/-- How a token was built: `GetToken()` of a source, or `JoinToken` of two built tokens. -/
inductive TokenTerm where
  | get (s : SourceId)
  | join (t1 t2 : TokenTerm)

/-- The token a term builds. -/
def TokenTerm.build : TokenTerm → CCancellationToken
  | .get s => getToken s
  | .join t1 t2 => joinToken t1.build t2.build

/-- The sources at the leaves of a term, in order, repeats kept. -/
def TokenTerm.leaves : TokenTerm → List SourceId
  | .get s => [s]
  | .join t1 t2 => t1.leaves ++ t2.leaves

/-- A built token is canceled exactly when the source of one of its leaves is. -/
theorem isCanceled_build (h : Sources) (t : TokenTerm) :
    isCanceled h t.build = true ↔ ∃ s ∈ t.leaves, sourceIsCanceled h s = true := by
  induction t with
  | get s => simp [TokenTerm.build, TokenTerm.leaves, isCanceled, getToken]
  | join t1 t2 ih1 ih2 =>
    rw [TokenTerm.build, isCanceled_joinToken, Bool.or_eq_true, ih1, ih2, TokenTerm.leaves]
    simp only [List.mem_append]
    constructor
    · rintro (⟨s, member, canceled⟩ | ⟨s, member, canceled⟩)
      · exact ⟨s, .inl member, canceled⟩
      · exact ⟨s, .inr member, canceled⟩
    · rintro ⟨s, member | member, canceled⟩
      · exact .inl ⟨s, member, canceled⟩
      · exact .inr ⟨s, member, canceled⟩

/-- Any token built by nested `JoinToken` from `GetToken()` tokens, at every point `k` of
any sequence of `Cancel()` calls, is canceled exactly when a call so far named one of its
leaves; `JoinToken` is the `or` of the two tokens; and a canceled token stays canceled. -/
theorem isCanceled_run (t : TokenTerm) (calls : List SourceId) :
    (∀ k, isCanceled (run (calls.take k)) t.build = true ↔
      ∃ s ∈ t.leaves, s ∈ calls.take k) ∧
    (∀ (h : Sources) (token1 token2 : CCancellationToken),
      isCanceled h (joinToken token1 token2) = (isCanceled h token1 || isCanceled h token2)) ∧
    (∀ j k, j ≤ k → isCanceled (run (calls.take j)) t.build = true →
      isCanceled (run (calls.take k)) t.build = true) := by
  have point : ∀ k, isCanceled (run (calls.take k)) t.build = true ↔
      ∃ s ∈ t.leaves, s ∈ calls.take k := fun k => by
    simp only [isCanceled_build, sourceIsCanceled_run]
  refine ⟨point, isCanceled_joinToken, fun j k le canceled => ?_⟩
  obtain ⟨s, leaf, called⟩ := (point j).1 canceled
  exact (point k).2 ⟨s, leaf, (List.take_prefix_take_left calls le).subset called⟩

theorem isCanceled_run_joined :
    isCanceled (run ([2, 3].take 2)) (TokenTerm.join (.get 1) (.get 2)).build = true :=
  (isCanceled_run (.join (.get 1) (.get 2)) [2, 3]).2.2 1 2 (by decide) (by decide)

/-! ## Order and frame -/

/-- The flags depend only on which sources were called: any interleaving or repetition
of the same calls gives the same state. -/
theorem run_eq_of_same_sources {calls calls' : List SourceId} (same : ∀ s, s ∈ calls ↔ s ∈ calls') :
    run calls = run calls' := by
  have flags : ∀ s, sourceIsCanceled (run calls) s = sourceIsCanceled (run calls') s := fun s =>
    Bool.eq_iff_iff.2 ((sourceIsCanceled_run calls s).trans ((same s).trans
      (sourceIsCanceled_run calls' s).symm))
  cases hc : run calls
  cases hc' : run calls'
  rw [hc, hc'] at flags
  exact congrArg Sources.mk (funext flags)

theorem run_eq_of_same_sources_swap : run [1, 2, 1] = run [2, 1] :=
  run_eq_of_same_sources fun s => by simp [or_comm]

/-- A `Cancel()` on a source a token is not attached to leaves the token as it was. -/
theorem isCanceled_cancel_of_not_mem {t : CCancellationToken} {c : SourceId} (h : Sources)
    (absent : c ∉ t.mSource) : isCanceled (cancel h c) t = isCanceled h t := by
  apply Bool.eq_iff_iff.2
  simp only [isCanceled, List.any_eq_true, sourceIsCanceled_cancel, Bool.or_eq_true, beq_iff_eq]
  refine exists_congr fun s => and_congr_right fun member => ?_
  have : s ≠ c := fun same => absent (same ▸ member)
  simp [this]

theorem isCanceled_cancel_of_not_mem_other :
    isCanceled (cancel fresh 3) (getToken 1) = isCanceled fresh (getToken 1) :=
  isCanceled_cancel_of_not_mem fresh (by decide)

end BitcoinSv.Task
