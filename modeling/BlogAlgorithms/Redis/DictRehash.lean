import BlogAlgorithms.Redis.DictTable

namespace BlogAlgorithms.Redis
open C

namespace Dict
variable {K V : Type}

/-- Between two rehashes only the first table is in use. -/
structure Idle (hashFunction : K → BitVec 64) (d : Dict K V) : Prop where
  sound : d.ht0.Sound hashFunction
  sized : d.ht0 = .reset ∨ d.ht0.Sized
  second : d.ht1 = .reset
  nodup : (d.entries.map DictEntry.key).Nodup

/-- During a rehash the keys are spread over both tables, and the buckets of the
first one below the index have been moved. -/
structure Moving (hashFunction : K → BitVec 64) (d : Dict K V) (idx : Nat) : Prop where
  sound0 : d.ht0.Sound hashFunction
  sound1 : d.ht1.Sound hashFunction
  sized0 : d.ht0.Sized
  sized1 : d.ht1.Sized
  nodup : (d.entries.map DictEntry.key).Nodup
  cleared : ∀ i < idx, d.ht0.table[i]? = some []

inductive Valid (hashFunction : K → BitVec 64) (d : Dict K V) : Prop
  | idle (notRehashing : d.rehashidx = none) (state : d.Idle hashFunction)
  | moving (idx : Nat) (rehashing : d.rehashidx = some idx) (below : idx < d.ht0.size)
    (state : d.Moving hashFunction idx)

variable {hashFunction : K → BitVec 64}

theorem valid_dictCreate : (dictCreate : Dict K V).Valid hashFunction :=
  .idle rfl ⟨Dictht.sound_reset, Or.inl rfl, rfl, List.nodup_nil⟩

theorem Valid.nodup {d : Dict K V} (valid : d.Valid hashFunction) : (d.entries.map DictEntry.key).Nodup := by
  cases valid with
  | idle _ state => exact state.nodup
  | moving _ _ _ state => exact state.nodup

theorem Valid.dictSize_eq {d : Dict K V} (valid : d.Valid hashFunction) : d.dictSize = d.entries.length := by
  cases valid with
  | idle _ state =>
    rw [dictSize, entries, List.length_append, state.second, state.sound.count, Dictht.entries_reset]
    rfl
  | moving _ _ _ state => simp [dictSize, entries, state.sound0.count, state.sound1.count]

/-- While entries are left in the first table there is a bucket to move, at or
after the index. -/
theorem Moving.later {d : Dict K V} {idx : Nat} (state : d.Moving hashFunction idx) (left : d.ht0.used ≠ 0) :
    ∃ j chain, idx ≤ j ∧ d.ht0.table[j]? = some chain ∧ chain ≠ [] := by
  rw [state.sound0.count] at left
  obtain ⟨e, member⟩ := List.exists_mem_of_length_pos (Nat.pos_of_ne_zero left)
  obtain ⟨chain, isChain, inChain⟩ := List.mem_flatten.mp member
  obtain ⟨j, atJ⟩ := List.mem_iff_getElem?.mp isChain
  refine ⟨j, chain, ?_, atJ, List.ne_nil_of_mem inChain⟩
  by_contra before
  rw [state.cleared j (by omega)] at atJ
  exact List.ne_nil_of_mem inChain (Option.some.inj atJ).symm

theorem Moving.below {d : Dict K V} {idx : Nat} (state : d.Moving hashFunction idx) (left : d.ht0.used ≠ 0) :
    idx < d.ht0.size := by
  obtain ⟨j, chain, reached, atJ, _⟩ := state.later left
  have inside := (List.getElem?_eq_some_iff.mp atJ).1
  exact lt_of_le_of_lt reached inside

theorem skipEmpty_spec (table : List (List (DictEntry K V))) (visits : Nat) {idx : Nat}
    (later : ∃ j chain, idx ≤ j ∧ table[j]? = some chain ∧ chain ≠ []) :
    ∃ next left, skipEmpty table (visits + 1) idx = .ok (next, left) ∧ idx ≤ next ∧
      (∀ i, idx ≤ i → i < next → table[i]? = some []) ∧
      (left = 0 ∧ idx < next ∨ 0 < left ∧ ∃ chain, table[next]? = some chain ∧ chain ≠ []) := by
  obtain ⟨j, last, reached, atJ, filled⟩ := later
  induction visits generalizing idx with
  | zero =>
    obtain ⟨chain, here⟩ : ∃ chain, table[idx]? = some chain :=
      ⟨_, List.getElem?_eq_getElem (lt_of_le_of_lt reached (List.getElem?_eq_some_iff.mp atJ).1)⟩
    rw [skipEmpty, load_of_getElem here]
    by_cases empty : chain = []
    · refine ⟨idx + 1, 0, by simp [empty], Nat.le_succ idx, fun i lower upper => ?_,
        Or.inl ⟨rfl, Nat.lt_succ_self idx⟩⟩
      rw [show i = idx by omega, here, empty]
    · exact ⟨idx, 1, by simp [empty], le_rfl, fun i lower upper => absurd lower (by omega),
        Or.inr ⟨Nat.one_pos, chain, here, empty⟩⟩
  | succ visits ih =>
    obtain ⟨chain, here⟩ : ∃ chain, table[idx]? = some chain :=
      ⟨_, List.getElem?_eq_getElem (lt_of_le_of_lt reached (List.getElem?_eq_some_iff.mp atJ).1)⟩
    rw [skipEmpty, load_of_getElem here]
    by_cases empty : chain = []
    · have further : idx + 1 ≤ j := by
        rcases reached.lt_or_eq with before | same
        · exact before
        · subst same
          rw [here] at atJ
          exact absurd (empty ▸ Option.some.inj atJ).symm filled
      obtain ⟨next, left, runs, lower, skipped, result⟩ := ih further
      refine ⟨next, left, by simpa [empty] using runs, by omega, fun i above below => ?_, ?_⟩
      · rcases above.lt_or_eq with above | rfl
        · exact skipped i above below
        · rw [here, empty]
      · exact result.imp_left fun stopped => ⟨stopped.1, by omega⟩
    · exact ⟨idx, visits + 2, by simp [empty], le_rfl, fun i lower upper => absurd lower (by omega),
        Or.inr ⟨by omega, chain, here, empty⟩⟩

/-- Moving the entries of one chain. -/
theorem moveEntries_spec (chain : List (DictEntry K V)) {d : Dict K V} (sound1 : d.ht1.Sound hashFunction)
    (sized1 : d.ht1.Sized) :
    ∃ ht1, chain.foldlM (moveEntry hashFunction) d =
        .ok { d with ht0 := { d.ht0 with used := d.ht0.used - chain.length }, ht1 := ht1 } ∧
      ht1.Sound hashFunction ∧ ht1.size = d.ht1.size ∧ ht1.entries.Perm (chain ++ d.ht1.entries) := by
  induction chain generalizing d with
  | nil => exact ⟨d.ht1, rfl, sound1, rfl, List.Perm.refl _⟩
  | cons de rest ih =>
    obtain ⟨pushed, runs, soundPushed, sizePushed, permPushed⟩ := sound1.push_spec sized1 de
    have first : moveEntry hashFunction d de =
        .ok { d with ht0 := { d.ht0 with used := d.ht0.used - 1 }, ht1 := pushed } := by
      rw [moveEntry, runs]
      rfl
    obtain ⟨ht1, runsRest, sound, size, perm⟩ :=
      @ih { d with ht0 := { d.ht0 with used := d.ht0.used - 1 }, ht1 := pushed } soundPushed
      (sized1.of_size_eq sizePushed)
    refine ⟨ht1, ?_, sound, size.trans sizePushed, perm.trans ?_⟩
    · rw [List.foldlM_cons, first, ok_bind, runsRest, List.length_cons, Nat.sub_sub, Nat.add_comm]
    · exact (permPushed.append_left rest).trans List.perm_middle

/-- What steps of a rehash change: the index goes up and entries change tables. -/
structure Progress (hashFunction : K → BitVec 64) (d after : Dict K V) (idx next : Nat) : Prop where
  rehashing : after.rehashidx = some next
  state : after.Moving hashFunction next
  perm : after.entries.Perm d.entries
  size0 : after.ht0.size = d.ht0.size
  size1 : after.ht1.size = d.ht1.size
  pause : after.pauserehash = d.pauserehash
  le : idx ≤ next

theorem Progress.trans {d middle after : Dict K V} {idx between next : Nat}
    (first : Progress hashFunction d middle idx between)
    (second : Progress hashFunction middle after between next) : Progress hashFunction d after idx next :=
  ⟨second.rehashing, second.state, second.perm.trans first.perm, second.size0.trans first.size0,
    second.size1.trans first.size1, second.pause.trans first.pause, first.le.trans second.le⟩

/-- Passing over empty buckets. -/
theorem Moving.skip {d : Dict K V} {idx next : Nat} (state : d.Moving hashFunction idx)
    (empty : ∀ i, idx ≤ i → i < next → d.ht0.table[i]? = some []) : d.Moving hashFunction next := by
  refine { state with cleared := fun i below => ?_ }
  rcases Nat.lt_or_ge i idx with before | after
  · exact state.cleared i before
  · exact empty i after below

/-- One bucket goes over to the second table. -/
theorem Moving.move {d : Dict K V} {idx : Nat} {chain : List (DictEntry K V)} (state : d.Moving hashFunction idx)
    (here : d.ht0.table[idx]? = some chain) :
    ∃ ht1, chain.foldlM (moveEntry hashFunction) d =
        .ok { d with ht0 := { d.ht0 with used := d.ht0.used - chain.length }, ht1 := ht1 } ∧
      Progress hashFunction d
        { d with
          ht0 := ⟨d.ht0.table.set idx [], d.ht0.used - chain.length⟩, ht1 := ht1, rehashidx := some (idx + 1) }
        idx (idx + 1) := by
  obtain ⟨ht1, runs, sound1, size1, perm1⟩ := moveEntries_spec chain state.sound1 state.sized1
  have count : d.ht0.used - chain.length + chain.length = d.ht0.used + ([] : List (DictEntry K V)).length := by
    have lengths := (Buckets.flatten_set_perm [] here).length_eq
    have counted := state.sound0.count
    simp only [List.length_append, List.length_nil, Dictht.entries] at lengths counted ⊢
    omega
  obtain ⟨sound0, perm0⟩ := state.sound0.exchange here (fun e member => by cases member) count
  have perm : (Dict.entries
      { d with
        ht0 := ⟨d.ht0.table.set idx [], d.ht0.used - chain.length⟩, ht1 := ht1,
        rehashidx := some (idx + 1) }).Perm d.entries := by
    refine (perm1.append_left _).trans ?_
    refine (List.perm_append_comm_assoc _ _ _).trans ?_
    rw [← List.append_assoc]
    exact perm0.append_right _
  refine ⟨ht1, runs, rfl, ⟨sound0, sound1, state.sized0.of_size_eq (by simp [Dictht.size]),
    state.sized1.of_size_eq size1, ?_, ?_⟩, perm, by simp [Dictht.size], size1, rfl, Nat.le_succ idx⟩
  · exact (perm.map DictEntry.key).nodup_iff.mpr state.nodup
  · intro i below
    rcases Nat.lt_succ_iff_lt_or_eq.mp below with before | rfl
    · exact (List.getElem?_set_ne (by omega)).trans (state.cleared i before)
    · exact List.getElem?_set_self (List.getElem?_eq_some_iff.mp here).1

theorem rehashLoop_spec (n : Nat) {visits idx : Nat} {d : Dict K V} (positive : 0 < visits)
    (rehashing : d.rehashidx = some idx) (state : d.Moving hashFunction idx) :
    ∃ after stopped next, rehashLoop hashFunction n visits idx d = .ok (after, stopped) ∧
      Progress hashFunction d after idx next ∧ (stopped = true → after.ht0.used ≠ 0) ∧
      (0 < n → d.ht0.used ≠ 0 → idx < next) := by
  induction n generalizing visits idx d with
  | zero =>
    exact ⟨d, false, idx, rfl, ⟨rehashing, state, List.Perm.refl _, rfl, rfl, rfl, le_rfl⟩, by simp, by simp⟩
  | succ n ih =>
    by_cases done : d.ht0.used = 0
    · refine ⟨d, false, idx, by rw [rehashLoop, if_pos done],
        ⟨rehashing, state, List.Perm.refl _, rfl, rfl, rfl, le_rfl⟩, by simp, fun _ left => absurd done left⟩
    have inside : ¬ d.ht0.size ≤ idx := Nat.not_le.mpr (state.below done)
    obtain ⟨visits, rfl⟩ : ∃ fewer, visits = fewer + 1 := ⟨visits - 1, by omega⟩
    obtain ⟨mid, left, skips, le, skipped, result⟩ := skipEmpty_spec d.ht0.table visits (state.later done)
    have there := state.skip skipped
    rcases result with ⟨rfl, advanced⟩ | ⟨more, chain, here, _⟩
    · -- the visits ran out: the index is stored and the rehash goes on another time
      refine ⟨{ d with rehashidx := some mid }, true, mid, ?_,
        ⟨rfl, ⟨there.sound0, there.sound1, there.sized0, there.sized1, there.nodup, there.cleared⟩,
          List.Perm.refl _, rfl, rfl, rfl, le⟩, fun _ => done, fun _ _ => advanced⟩
      rw [rehashLoop, if_neg done, if_neg inside, skips]
      rfl
    · obtain ⟨ht1, moves, progress⟩ := there.move here
      obtain ⟨after, stopped, next, runs, rest, stop, _⟩ := ih more progress.rehashing progress.state
      have first : Progress hashFunction d _ idx (mid + 1) :=
        { progress with le := by omega }
      refine ⟨after, stopped, next, ?_, first.trans rest, stop, fun _ _ => ?_⟩
      · rw [rehashLoop, if_neg done, if_neg inside, skips]
        simp only [ok_bind, Nat.pos_iff_ne_zero.mp more, if_false, load_of_getElem here, moves]
        exact runs
      · have passed := rest.le
        omega

theorem rehashLoop_done (n visits idx : Nat) {d : Dict K V} (done : d.ht0.used = 0) :
    rehashLoop hashFunction n visits idx d = .ok (d, false) := by
  cases n with
  | zero => rfl
  | succ n => rw [rehashLoop, if_pos done]

/-- What a call of `dictRehash` with steps to make does to a dictionary under
rehash: it finishes, or goes on with the index further up. -/
inductive Rehashed (hashFunction : K → BitVec 64) (d : Dict K V) (idx : Nat) (after : Dict K V) : Prop
  | finished (notRehashing : after.rehashidx = none) (state : after.Idle hashFunction)
      (perm : after.entries.Perm d.entries) (size : after.ht0.size = d.ht1.size)
      (pause : after.pauserehash = d.pauserehash)
  | further (next : Nat) (above : idx < next) (below : next < d.ht0.size)
    (progress : Progress hashFunction d after idx next)

/-- The end of a rehash: the second table takes the place of the first. -/
theorem Moving.finish {d : Dict K V} {idx : Nat} (state : d.Moving hashFunction idx) (done : d.ht0.used = 0) :
    ({ d with ht0 := d.ht1, ht1 := .reset, rehashidx := none } : Dict K V).Idle hashFunction ∧
      ({ d with ht0 := d.ht1, ht1 := .reset, rehashidx := none } : Dict K V).entries = d.entries := by
  have empty : d.ht0.entries = [] := List.length_eq_zero_iff.mp (state.sound0.count ▸ done)
  have same : ({ d with ht0 := d.ht1, ht1 := .reset, rehashidx := none } : Dict K V).entries = d.entries := by
    simp [entries, empty, Dictht.entries_reset]
  exact ⟨⟨state.sound1, Or.inr state.sized1, rfl, same ▸ state.nodup⟩, same⟩

theorem Moving.dictRehash_spec {d : Dict K V} {idx : Nat} (state : d.Moving hashFunction idx)
    (rehashing : d.rehashidx = some idx) (n : Nat) :
    ∃ after more, d.dictRehash hashFunction (n + 1) = .ok (after, more) ∧ more = after.dictIsRehashing ∧
      Rehashed hashFunction d idx after := by
  by_cases done : d.ht0.used = 0
  · obtain ⟨idle, same⟩ := state.finish done
    refine ⟨_, false, ?_, ?_, .finished rfl idle (same ▸ List.Perm.refl _) rfl rfl⟩
    · rw [dictRehash, rehashing]
      simp only [rehashLoop_done _ _ _ done, ok_bind, done, if_true]
      rfl
    · rfl
  obtain ⟨after, stopped, next, runs, progress, stop, advance⟩ :=
    rehashLoop_spec (n + 1) (show 0 < emptyVisits (n + 1) from Nat.succ_pos _) rehashing state
  have above := advance (by omega) done
  by_cases emptied : after.ht0.used = 0
  · have notStopped : stopped = false := Bool.eq_false_iff.mpr fun isStopped => stop isStopped emptied
    obtain ⟨idle, same⟩ := progress.state.finish emptied
    refine ⟨_, false, ?_, ?_, .finished rfl idle (same ▸ progress.perm) progress.size1 progress.pause⟩
    · rw [dictRehash, rehashing]
      simp only [runs, ok_bind, notStopped, emptied, if_true]
      rfl
    · rfl
  · refine ⟨after, true, ?_, ?_, .further next above (progress.size0 ▸ progress.state.below emptied) progress⟩
    · rw [dictRehash, rehashing]
      simp only [runs, ok_bind, emptied, if_false, ite_self]
    · rw [dictIsRehashing, progress.rehashing]
      rfl

theorem Rehashed.valid {d after : Dict K V} {idx : Nat} (rehashed : Rehashed hashFunction d idx after) :
    after.Valid hashFunction := by
  cases rehashed with
  | finished notRehashing state _ _ _ => exact .idle notRehashing state
  | further next _ below progress =>
    exact .moving next progress.rehashing (progress.size0.symm ▸ below) progress.state

theorem Rehashed.perm {d after : Dict K V} {idx : Nat} (rehashed : Rehashed hashFunction d idx after) :
    after.entries.Perm d.entries := by
  cases rehashed with
  | finished _ _ perm _ _ => exact perm
  | further _ _ _ progress => exact progress.perm

theorem Rehashed.pause {d after : Dict K V} {idx : Nat} (rehashed : Rehashed hashFunction d idx after) :
    after.pauserehash = d.pauserehash := by
  cases rehashed with
  | finished _ _ _ _ pause => exact pause
  | further _ _ _ progress => exact progress.pause

/-- The bytes of both tables are counted without a wrap. -/
def Fits (d : Dict K V) : Prop := d.ht0.size ≤ 2 ^ 60 ∧ d.ht1.size ≤ 2 ^ 60

theorem Fits.finish {d : Dict K V} (fits : d.Fits) :
    ({ d with ht0 := d.ht1, ht1 := .reset, rehashidx := none } : Dict K V).Fits :=
  ⟨fits.2, Nat.zero_le _⟩

theorem Rehashed.fits {d after : Dict K V} {idx : Nat} (rehashed : Rehashed hashFunction d idx after)
    (fits : d.Fits) : after.Fits := by
  cases rehashed with
  | finished _ state _ size _ => exact ⟨size ▸ fits.2, by rw [state.second]; exact Nat.zero_le _⟩
  | further _ _ _ progress => exact ⟨progress.size0 ▸ fits.1, progress.size1 ▸ fits.2⟩

/-- Any call of `dictRehash` keeps the entries. -/
theorem Valid.dictRehash_spec {d : Dict K V} (valid : d.Valid hashFunction) (n : Nat) :
    ∃ after more, d.dictRehash hashFunction n = .ok (after, more) ∧ after.Valid hashFunction ∧
      after.entries.Perm d.entries ∧ (d.Fits → after.Fits) := by
  cases valid with
  | idle notRehashing state =>
    exact ⟨d, false, by rw [dictRehash, notRehashing], .idle notRehashing state, List.Perm.refl _, id⟩
  | moving idx rehashing below state =>
    cases n with
    | succ n =>
      obtain ⟨after, more, runs, _, rehashed⟩ := state.dictRehash_spec rehashing n
      exact ⟨after, more, runs, rehashed.valid, rehashed.perm, rehashed.fits⟩
    | zero =>
      rw [dictRehash, rehashing]
      by_cases done : d.ht0.used = 0
      · obtain ⟨idle, same⟩ := state.finish done
        exact ⟨_, false, by simp [rehashLoop, done], .idle rfl idle, same ▸ List.Perm.refl _, Fits.finish⟩
      · exact ⟨d, true, by simp [rehashLoop, done], .moving idx rehashing below state, List.Perm.refl _, id⟩

/-- The step at the beginning of an operation: nothing without a rehash or while
it is paused, and otherwise one step of it. -/
theorem Valid.step_spec {d : Dict K V} (valid : d.Valid hashFunction) :
    ∃ after, d.stepIfRehashing hashFunction = .ok after ∧ after.Valid hashFunction ∧ after.entries.Perm d.entries ∧
      (after = d ∧ (d.rehashidx = none ∨ d.pauserehash ≠ 0) ∨
        ∃ idx, d.rehashidx = some idx ∧ Rehashed hashFunction d idx after) := by
  cases valid with
  | idle notRehashing state =>
    refine ⟨d, ?_, .idle notRehashing state, List.Perm.refl _, Or.inl ⟨rfl, Or.inl notRehashing⟩⟩
    simp [stepIfRehashing, dictIsRehashing, notRehashing]
  | moving idx rehashing below state =>
    by_cases paused : d.pauserehash = 0
    · obtain ⟨after, more, runs, _, rehashed⟩ := state.dictRehash_spec rehashing 0
      refine ⟨after, ?_, rehashed.valid, rehashed.perm, Or.inr ⟨idx, rehashing, rehashed⟩⟩
      rw [Nat.zero_add] at runs
      simp [stepIfRehashing, dictIsRehashing, rehashing, dictRehashStep, paused, runs]
    · refine ⟨d, ?_, .moving idx rehashing below state, List.Perm.refl _, Or.inl ⟨rfl, Or.inr paused⟩⟩
      simp [stepIfRehashing, dictIsRehashing, rehashing, dictRehashStep, paused]

theorem Valid.step_fits {d after : Dict K V} (valid : d.Valid hashFunction)
    (steps : d.stepIfRehashing hashFunction = .ok after) (fits : d.Fits) : after.Fits := by
  obtain ⟨stepped, runs, _, _, outcome⟩ := valid.step_spec
  cases Except.ok.inj (runs.symm.trans steps)
  rcases outcome with ⟨rfl, _⟩ | ⟨idx, _, rehashed⟩
  · exact fits
  · exact rehashed.fits fits

end Dict
end BlogAlgorithms.Redis
