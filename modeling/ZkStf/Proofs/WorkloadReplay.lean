import ZkStf.Model.Generator
import ZkStf.Proofs.Playback
import ZkStf.Proofs.StateRoot

namespace ZkStf
open ZkStf.Basis
variable {C : Crypto}

/-- Every account of the ledger is below a bound. -/
def State.Below (bound : UInt32) (s : State) : Prop :=
  ∀ account, (s.balances.get? account).isSome → account < bound

section
variable {bound : UInt32} {s : State}

theorem State.Below.setBalance (h : s.Below bound) {account : UInt32} (ha : account < bound)
    (amount : UInt64) : (s.setBalance account amount).Below bound := by
  intro x hx
  rw [State.setBalance, EntryMap.get?_insert] at hx
  split at hx
  · rename_i he
    exact he ▸ ha
  · exact h x hx

theorem initialState_below (numAccounts : UInt32) (initialBalance : UInt64) :
    (generateInitialState numAccounts initialBalance).Below numAccounts := by
  unfold generateInitialState
  have hfold : ∀ (l : List Nat) (s : State), s.Below numAccounts →
      (∀ i ∈ l, i < numAccounts.toNat) →
      (l.foldl (fun s i => s.setBalance (UInt32.ofNat i) initialBalance) s).Below numAccounts := by
    intro l
    induction l with
    | nil => exact fun s hs _ => hs
    | cons i rest ih =>
      intro s hs hl
      have hi := hl i (by simp)
      have hsize := numAccounts.toNat_lt_size
      apply ih _ _ (fun x hx => hl x (by simp [hx]))
      apply hs.setBalance
      rw [UInt32.lt_iff_toNat_lt, UInt32.toNat_ofNat_of_lt' (by omega)]
      exact hi
  apply hfold
  · intro account h
    cases h
  · exact fun i hi => List.mem_range.mp hi

/-- A transaction between accounts below a bound. -/
def Tx.Below (bound : UInt32) (tx : Tx) : Prop := tx.fromAccount < bound ∧ tx.toAccount < bound

theorem applyBlock_below {txs : List Tx} (hs : s.Below bound) (ht : ∀ tx ∈ txs, tx.Below bound) :
    (applyBlock s txs).1.Below bound := by
  unfold applyBlock
  generalize (0 : UInt32) = count
  induction txs generalizing s count with
  | nil => exact hs
  | cons tx rest ih =>
    rw [List.foldl_cons]
    have hrest : ∀ x ∈ rest, x.Below bound := fun x hx => ht x (by simp [hx])
    obtain ⟨hfrom, hto⟩ := ht tx (by simp)
    unfold applyTx
    dsimp only
    split
    · exact ih ((hs.setBalance hfrom _).setBalance hto _) hrest _
    · exact ih hs hrest _

/-- With at most 2^31 accounts the leaves can be counted. -/
theorem State.Below.root (hs : s.Below bound) (hmax : bound.toNat ≤ 2 ^ 31) :
    ∃ root, computeStateRoot C s = some root := by
  rw [computeStateRoot_isSome]
  have hsize : s.balances.size ≤ bound.toNat := by
    have hsub : s.balances.keys.map UInt32.toNat ⊆ List.range bound.toNat := by
      intro i hi
      obtain ⟨account, hmem, rfl⟩ := List.mem_map.mp hi
      have hlt := hs account (EntryMap.mem_keys.mp hmem)
      exact List.mem_range.mpr (UInt32.lt_iff_toNat_lt.mp hlt)
    have hnodup : (s.balances.keys.map UInt32.toNat).Nodup :=
      s.balances.nodup.map (fun a b h => UInt32.toNat_inj.mp h)
    have hlen := (List.subperm_of_subset hnodup hsub).length_le
    simpa [EntryMap.keys, EntryMap.size] using hlen
  exact leafCount_lt (hsize.trans hmax)

end

/-- The remainder of a seed is an account. -/
theorem seed_account {numAccounts : UInt32} (hpos : 0 < numAccounts.toNat) (seed : UInt64) :
    (seed % numAccounts.toUInt64).toUInt32 < numAccounts := by
  have hmod := Nat.mod_lt seed.toNat hpos
  rw [UInt32.lt_iff_toNat_lt, UInt64.toNat_toUInt32, UInt64.toNat_mod, UInt32.toNat_toUInt64]
  exact (Nat.mod_le _ _).trans_lt hmod

theorem generateTx_below {numAccounts : UInt32} (hpos : 0 < numAccounts.toNat) (seed : UInt64) :
    (generateTx numAccounts seed).1.Below numAccounts := by
  refine ⟨seed_account hpos _, ?_⟩
  simp only [generateTx]
  split
  · rw [UInt32.lt_iff_toNat_lt, UInt32.toNat_mod]
    exact Nat.mod_lt _ hpos
  · exact seed_account hpos _

/-- A ledger with accounts always has transactions to offer, between them. -/
theorem generateTxs_some (numTxs : Nat) {numAccounts : UInt32} (hpos : 0 < numAccounts.toNat)
    (seed : UInt64) : ∃ txs seed', generateTxs numTxs numAccounts seed = some (txs, seed') ∧
      ∀ tx ∈ txs, tx.Below numAccounts := by
  induction numTxs generalizing seed with
  | zero => exact ⟨[], seed, rfl, by simp⟩
  | succ numTxs ih =>
    have hne : numAccounts ≠ 0 := by
      rintro rfl
      cases hpos
    obtain ⟨txs, seed', hrest, hbelow⟩ := ih (generateTx numAccounts seed).2
    refine ⟨(generateTx numAccounts seed).1 :: txs, seed', ?_, ?_⟩
    · simp only [generateTxs, hne, ↓reduceIte, hrest, Option.map_some]
    · intro tx htx
      rcases List.mem_cons.mp htx with rfl | htx
      · exact generateTx_below hpos seed
      · exact hbelow tx htx

section
variable {tools : Tools C} {args : GeneratorArgs} {prove : Prover C} {dir : Directory C}

theorem skipBlocks_add (m n : Nat) (state : State) (seed : UInt64) :
    skipBlocks args (m + n) state seed =
      (skipBlocks args m state seed).bind (fun mid => skipBlocks args n mid.1 mid.2) := by
  induction m generalizing state seed with
  | zero => simp [skipBlocks]
  | succ m ih =>
    rw [Nat.succ_add]
    simp only [skipBlocks]
    cases generateTxs args.numTxs.toNat args.numAccounts seed with
    | none => rfl
    | some drawn => exact ih _ _

/-- The ledger and the seed that every run of the generator has before a block. -/
def At (args : GeneratorArgs) (block : Nat) (state : State) (seed : UInt64) : Prop :=
  skipBlocks args block (generateInitialState args.numAccounts args.initialBalance) 12345 =
    some (state, seed)

theorem At.next {block : Nat} {state : State} {seed seed' : UInt64} {txs : List Tx}
    (h : At args block state seed)
    (ht : generateTxs args.numTxs.toNat args.numAccounts seed = some (txs, seed')) :
    At args (block + 1) (applyBlock state txs).1 seed' := by
  unfold At at h ⊢
  rw [skipBlocks_add, h, Option.bind_some]
  simp only [skipBlocks, ht, Option.bind_some]

theorem at_exists (hpos : 0 < args.numAccounts.toNat) (block : Nat) :
    ∃ state seed, At args block state seed ∧ state.Below args.numAccounts := by
  induction block with
  | zero => exact ⟨_, _, rfl, initialState_below _ _⟩
  | succ block ih =>
    obtain ⟨state, seed, hat, hbelow⟩ := ih
    obtain ⟨txs, seed', htxs, htx⟩ := generateTxs_some args.numTxs.toNat hpos seed
    exact ⟨_, _, hat.next htxs, applyBlock_below hbelow htx⟩

/-- The ledger a block starts from, and its transactions. -/
def Made (args : GeneratorArgs) (block : Nat) (state : State) (txs : List Tx) : Prop :=
  ∃ seed seed', At args block state seed ∧
    generateTxs args.numTxs.toNat args.numAccounts seed = some (txs, seed')

theorem Made.unique {block : Nat} {state state' : State} {txs txs' : List Tx}
    (h : Made args block state txs) (h' : Made args block state' txs') :
    state' = state ∧ txs' = txs := by
  obtain ⟨seed, next, hat, htxs⟩ := h
  obtain ⟨seed', next', hat', htxs'⟩ := h'
  cases hat.symm.trans hat'
  cases htxs.symm.trans htxs'
  exact ⟨rfl, rfl⟩

theorem guestMain_eq_some {state : State} {txs : List Tx} {commit : BlockCommit C.Hash} :
    guestMain C state txs = some commit ↔ computeStateRoot C state = some commit.preStateRoot ∧
      computeStateRoot C (applyBlock state txs).1 = some commit.postStateRoot ∧
      hashTransactions C txs = commit.txHash := by
  unfold guestMain
  cases computeStateRoot C state with
  | none => simp
  | some pre =>
    cases computeStateRoot C (applyBlock state txs).1 with
    | none => simp
    | some post =>
      obtain ⟨pre', post', hash'⟩ := commit
      simp

/-- What a run saves about a block, in terms of what the guest commits to. -/
def savedCommit (tools : Tools C) (args : GeneratorArgs) (block : Nat) (state : State)
    (txs : List Tx) (commit : BlockCommit C.Hash) : CommitJson :=
  ⟨UInt32.ofNat block, tools.hexEncode commit.preStateRoot, tools.hexEncode commit.postStateRoot,
    tools.hexEncode commit.txHash, (applyBlock state txs).2, args.numTxs⟩

/-- A file as it should be, whichever run writes it. -/
def RightFile (tools : Tools C) (args : GeneratorArgs) : FileWrite C → Prop
  | .manifest m => m = args.manifest
  | .transactions block txs => ∃ state, Made args block state txs
  | .proof block proof => ∃ state txs, Made args block state txs ∧
      guestMain C state txs = some (C.publicValues proof) ∧
      C.verifyProof tools.vkey proof = true
  | .commitJson block info => ∃ state txs commit, Made args block state txs ∧
      guestMain C state txs = some commit ∧ info = savedCommit tools args block state txs commit

/-- A round of the generator gives up before or after it has saved the
transactions, or writes the three files of its block. -/
theorem generateBlock_cases (tools : Tools C) (args : GeneratorArgs) (prove : Prover C)
    (block : Nat) (state : State) (seed : UInt64) :
    generateBlock tools args prove block state seed = ([], none) ∨
      ∃ txs seed', generateTxs args.numTxs.toNat args.numAccounts seed = some (txs, seed') ∧
        (generateBlock tools args prove block state seed = ([.transactions block txs], none) ∨
          ∃ proof, guestMain C state txs = some (C.publicValues proof) ∧
            C.verifyProof tools.vkey proof = true ∧
            generateBlock tools args prove block state seed =
              ([.transactions block txs, .proof block proof, .commitJson block
                (savedCommit tools args block state txs (C.publicValues proof))],
                some ((applyBlock state txs).1, seed'))) := by
  unfold generateBlock
  split
  · exact Or.inl rfl
  rename_i txs seed' htxs
  dsimp only
  split
  · rename_i pre post hpre hpost
    refine Or.inr ⟨txs, seed', htxs, ?_⟩
    split
    · exact Or.inl rfl
    rename_i proof hproof
    split
    · exact Or.inl rfl
    · rename_i hchecks
      simp only [not_or, not_not, Bool.not_eq_false] at hchecks
      obtain ⟨hpre', hpost', hhash, hverify⟩ := hchecks
      refine Or.inr ⟨proof, ?_, hverify, ?_⟩
      · rw [guestMain_eq_some, hpre', hpost', hhash]
        exact ⟨hpre, hpost, rfl⟩
      · rw [savedCommit, hpre', hpost', hhash]
  · exact Or.inl rfl

/-- A round of the generator writes the right files, and leaves the right ledger
and seed to the next one. -/
theorem generateBlock_right (tools : Tools C) (prove : Prover C) {block : Nat} {state : State}
    {seed : UInt64} (hat : At args block state seed) :
    (∀ file ∈ (generateBlock tools args prove block state seed).1, RightFile tools args file) ∧
      ∀ next, (generateBlock tools args prove block state seed).2 = some next →
        At args (block + 1) next.1 next.2 := by
  rcases generateBlock_cases tools args prove block state seed with
    heq | ⟨txs, seed', htxs, heq | ⟨proof, hguest, hverify, heq⟩⟩
  · simp [heq]
  · rw [heq]
    refine ⟨?_, by simp⟩
    intro file hfile
    cases List.mem_singleton.mp hfile
    exact ⟨state, seed, seed', hat, htxs⟩
  · have hmade : Made args block state txs := ⟨seed, seed', hat, htxs⟩
    rw [heq]
    refine ⟨?_, ?_⟩
    · intro file hfile
      simp only [List.mem_cons, List.not_mem_nil, or_false] at hfile
      rcases hfile with rfl | rfl | rfl
      · exact ⟨state, hmade⟩
      · exact ⟨state, txs, hmade, hguest, hverify⟩
      · exact ⟨state, txs, _, hmade, hguest, rfl⟩
    · intro next hnext
      cases hnext
      exact hat.next htxs

theorem generateBlocks_right (rounds : Nat) {block : Nat} {state : State} {seed : UInt64}
    (hat : At args block state seed) :
    ∀ file ∈ generateBlocks tools args prove rounds block state seed,
      RightFile tools args file := by
  induction rounds generalizing block state seed with
  | zero =>
    intro file hfile
    cases List.mem_singleton.mp hfile
    rfl
  | succ rounds ih =>
    have hblock := generateBlock_right tools prove hat
    intro file hfile
    unfold generateBlocks at hfile
    rcases List.mem_append.mp hfile with hfile | hfile
    · exact hblock.1 file hfile
    · cases hround : (generateBlock tools args prove block state seed).2 with
      | none =>
        rw [hround] at hfile
        cases hfile
      | some next =>
        rw [hround] at hfile
        exact ih (hblock.2 next hround) file hfile

/-- Every run writes the right files only, wherever it starts and stops. -/
theorem run_right (run : GeneratorRun C) :
    ∀ file ∈ run.writes tools args, RightFile tools args file := by
  have hall : ∀ file ∈ generate tools args run.prove run.resumeFrom, RightFile tools args file := by
    intro file hfile
    rcases List.mem_cons.mp hfile with rfl | hfile
    · rfl
    · cases hskip : skipBlocks args run.resumeFrom.toNat
          (generateInitialState args.numAccounts args.initialBalance) 12345 with
      | none =>
        rw [hskip] at hfile
        cases hfile
      | some start =>
        rw [hskip] at hfile
        exact generateBlocks_right _ hskip file hfile
  intro file hfile
  unfold GeneratorRun.writes at hfile
  split at hfile
  · exact hall file hfile
  · exact hall file (List.mem_of_mem_take hfile)

/-- The files of a directory are all right. -/
structure Directory.Right (tools : Tools C) (args : GeneratorArgs) (dir : Directory C) :
    Prop where
  manifest : ∀ m, dir.manifest = some m → RightFile tools args (.manifest m)
  transactions : ∀ block txs, dir.transactions block = some txs →
    RightFile tools args (.transactions block txs)
  proof : ∀ block proof, dir.proof block = some proof →
    RightFile tools args (.proof block proof)
  commitJson : ∀ block info, dir.commitJson block = some info →
    RightFile tools args (.commitJson block info)

/-- A file of this name is there. -/
def Directory.Has (dir : Directory C) : FileWrite C → Prop
  | .manifest _ => dir.manifest.isSome
  | .transactions block _ => (dir.transactions block).isSome
  | .proof block _ => (dir.proof block).isSome
  | .commitJson block _ => (dir.commitJson block).isSome

theorem update_some {f : Nat → Option α} {i j : Nat} {a b : α}
    (h : Function.update f i (some a) j = some b) : j = i ∧ b = a ∨ f j = some b := by
  rw [Function.update_apply] at h
  split at h
  · cases h
    exact Or.inl ⟨by assumption, rfl⟩
  · exact Or.inr h

theorem Directory.Right.write (h : dir.Right tools args) {file : FileWrite C}
    (hf : RightFile tools args file) : (dir.write file).Right tools args := by
  cases file with
  | manifest m =>
    refine ⟨?_, h.transactions, h.proof, h.commitJson⟩
    intro m' hm
    cases hm
    exact hf
  | transactions block txs =>
    refine ⟨h.manifest, ?_, h.proof, h.commitJson⟩
    intro block' txs' ht
    rcases update_some ht with ⟨rfl, rfl⟩ | ht
    · exact hf
    · exact h.transactions block' txs' ht
  | proof block proof =>
    refine ⟨h.manifest, h.transactions, ?_, h.commitJson⟩
    intro block' proof' hp
    rcases update_some hp with ⟨rfl, rfl⟩ | hp
    · exact hf
    · exact h.proof block' proof' hp
  | commitJson block info =>
    refine ⟨h.manifest, h.transactions, h.proof, ?_⟩
    intro block' info' hi
    rcases update_some hi with ⟨rfl, rfl⟩ | hi
    · exact hf
    · exact h.commitJson block' info' hi

theorem writes_right {files : List (FileWrite C)} (h : dir.Right tools args)
    (hf : ∀ file ∈ files, RightFile tools args file) :
    (files.foldl Directory.write dir).Right tools args := by
  induction files generalizing dir with
  | nil => exact h
  | cons file rest ih => exact ih (h.write (hf file (by simp))) (fun x hx => hf x (by simp [hx]))

theorem update_isSome {f : Nat → Option α} {i j : Nat} {a : α} (h : (f j).isSome) :
    (Function.update f i (some a) j).isSome := by
  rw [Function.update_apply]
  split
  · rfl
  · exact h

theorem Directory.Has.write {file : FileWrite C} (h : dir.Has file) (file' : FileWrite C) :
    (dir.write file').Has file := by
  cases file' with
  | manifest m =>
    cases file with
    | manifest => rfl
    | _ => exact h
  | transactions block txs =>
    cases file with
    | transactions => exact update_isSome h
    | _ => exact h
  | proof block proof =>
    cases file with
    | proof => exact update_isSome h
    | _ => exact h
  | commitJson block info =>
    cases file with
    | commitJson => exact update_isSome h
    | _ => exact h

theorem has_written (dir : Directory C) (file : FileWrite C) : (dir.write file).Has file := by
  cases file <;> simp [Directory.write, Directory.Has]

theorem writes_has {files : List (FileWrite C)} {file : FileWrite C}
    (h : file ∈ files ∨ dir.Has file) : (files.foldl Directory.write dir).Has file := by
  induction files generalizing dir with
  | nil => exact h.resolve_left (by simp)
  | cons first rest ih =>
    apply ih
    rcases h with h | h
    · rcases List.mem_cons.mp h with rfl | h
      · exact Or.inr (has_written dir file)
      · exact Or.inl h
    · exact Or.inr (h.write first)

/-- The prover answers for a block, with a proof of the guest's output that the key
accepts. -/
def Proves (tools : Tools C) (prove : Prover C) (block : Nat) : Prop :=
  ∀ state txs commit, guestMain C state txs = some commit →
    ∃ proof, prove block state txs = some proof ∧ C.publicValues proof = commit ∧
      C.verifyProof tools.vkey proof = true

/-- The three files of a block are among those written. -/
def Finished (block : Nat) (files : List (FileWrite C)) : Prop :=
  ∃ txs proof info, FileWrite.transactions block txs ∈ files ∧ .proof block proof ∈ files ∧
    .commitJson block info ∈ files

theorem Finished.mono {block : Nat} {files files' : List (FileWrite C)}
    (h : Finished block files) (hsub : files ⊆ files') : Finished block files' := by
  obtain ⟨txs, proof, info, ht, hp, hi⟩ := h
  exact ⟨txs, proof, info, hsub ht, hsub hp, hsub hi⟩

theorem generateBlock_finishes (hpos : 0 < args.numAccounts.toNat)
    (hmax : args.numAccounts.toNat ≤ 2 ^ 31) {block : Nat} (hproves : Proves tools prove block)
    {state : State} (hbelow : state.Below args.numAccounts) (seed : UInt64) :
    ∃ txs proof info next seed', generateBlock tools args prove block state seed =
      ([.transactions block txs, .proof block proof, .commitJson block info],
        some (next, seed')) ∧ next.Below args.numAccounts := by
  obtain ⟨txs, seed', htxs, htx⟩ := generateTxs_some args.numTxs.toNat hpos seed
  have hnext := applyBlock_below hbelow htx
  obtain ⟨pre, hpre⟩ : ∃ root, computeStateRoot C state = some root := hbelow.root hmax
  obtain ⟨post, hpost⟩ : ∃ root, computeStateRoot C (applyBlock state txs).1 = some root :=
    hnext.root hmax
  have hguest : guestMain C state txs = some ⟨pre, post, hashTransactions C txs⟩ :=
    guestMain_eq_some.mpr ⟨hpre, hpost, rfl⟩
  obtain ⟨proof, hproof, hpublic, hverify⟩ := hproves state txs _ hguest
  refine ⟨txs, proof, savedCommit tools args block state txs (C.publicValues proof), _, seed', ?_,
    hnext⟩
  unfold generateBlock
  simp [htxs, hpre, hpost, hproof, hpublic, hverify, savedCommit]

/-- A run that is given proofs finishes block after block, three files each. -/
theorem generateBlocks_finishes (hpos : 0 < args.numAccounts.toNat)
    (hmax : args.numAccounts.toNat ≤ 2 ^ 31) {rounds i : Nat} (hi : i < rounds) {block : Nat}
    (hproves : ∀ b, block ≤ b → b ≤ block + i → Proves tools prove b) {state : State}
    (hbelow : state.Below args.numAccounts) (seed : UInt64) :
    Finished (block + i)
      ((generateBlocks tools args prove rounds block state seed).take (3 * i + 3)) := by
  induction rounds generalizing i block state seed with
  | zero => cases hi
  | succ rounds ih =>
    obtain ⟨txs, proof, info, next, seed', heq, hnext⟩ :=
      generateBlock_finishes hpos hmax (hproves block (Nat.le_refl _) (by omega)) hbelow seed
    have hlist : generateBlocks tools args prove (rounds + 1) block state seed =
        .transactions block txs :: .proof block proof :: .commitJson block info ::
          generateBlocks tools args prove rounds (block + 1) next seed' := by
      rw [generateBlocks, heq]
      rfl
    rw [hlist]
    cases i with
    | zero => exact ⟨txs, proof, info, by simp, by simp, by simp⟩
    | succ i =>
      have hrest : ∀ b, block + 1 ≤ b → b ≤ block + 1 + i → Proves tools prove b := by
        intro b hb hbi
        exact hproves b (by omega) (by omega)
      have hlater := ih (Nat.lt_of_succ_lt_succ hi) hrest hnext seed'
      rw [show block + (i + 1) = block + 1 + i by omega,
        show 3 * (i + 1) + 3 = 3 * i + 3 + 1 + 1 + 1 by omega]
      simp only [List.take_succ_cons]
      apply hlater.mono
      intro file hfile
      simp [hfile]

/-- A run gets through a block: it has the proofs up to it, and it is not stopped
before. A run writes the manifest and then three files a block. -/
structure GeneratorRun.Completes (tools : Tools C) (run : GeneratorRun C) (block : Nat) :
    Prop where
  resumed : run.resumeFrom.toNat ≤ block
  proves : ∀ b, run.resumeFrom.toNat ≤ b → b ≤ block → Proves tools run.prove b
  lasts : ∀ files, run.stopped = some files → 3 * (block - run.resumeFrom.toNat) + 4 ≤ files

/-- Some run wrote the manifest, and every block has a run that got through it. -/
def Covered (tools : Tools C) (args : GeneratorArgs) (runs : List (GeneratorRun C)) : Prop :=
  (∃ run ∈ runs, run.stopped ≠ some 0) ∧
    ∀ block < args.numBlocks.toNat, ∃ run ∈ runs, run.Completes tools block

theorem run_finishes (hpos : 0 < args.numAccounts.toNat)
    (hmax : args.numAccounts.toNat ≤ 2 ^ 31) {run : GeneratorRun C} {block : Nat}
    (hblock : block < args.numBlocks.toNat) (hrun : run.Completes tools block) :
    Finished block (run.writes tools args) := by
  have hresume := hrun.resumed
  obtain ⟨state, seed, hat, hbelow⟩ := at_exists hpos run.resumeFrom.toNat
  have hdone := generateBlocks_finishes hpos hmax
    (show block - run.resumeFrom.toNat < args.numBlocks.toNat - run.resumeFrom.toNat by omega)
    (fun b hb hbi => hrun.proves b hb (by omega)) hbelow seed
  rw [Nat.add_sub_of_le hresume] at hdone
  have hgenerate : generate tools args run.prove run.resumeFrom = .manifest args.manifest ::
      generateBlocks tools args run.prove (args.numBlocks.toNat - run.resumeFrom.toNat)
        run.resumeFrom.toNat state seed := by
    unfold generate
    rw [hat]
    rfl
  apply hdone.mono
  intro file hfile
  unfold GeneratorRun.writes
  split
  · rw [hgenerate]
    exact List.mem_cons_of_mem _ (List.mem_of_mem_take hfile)
  · rename_i files hfiles
    have hle := hrun.lasts files hfiles
    rw [hgenerate, show files = files - 1 + 1 by omega, List.take_succ_cons]
    refine List.mem_cons_of_mem _ (List.take_subset_take_left _ ?_ hfile)
    omega

theorem dir_right (tools : Tools C) (args : GeneratorArgs) (runs : List (GeneratorRun C)) :
    (workloadDir tools args runs).Right tools args := by
  apply writes_right
  · exact ⟨by simp [Directory.empty], by simp [Directory.empty], by simp [Directory.empty],
      by simp [Directory.empty]⟩
  · intro file hfile
    obtain ⟨run, _, hfile⟩ := List.mem_flatMap.mp hfile
    exact run_right run file hfile

theorem dir_has {runs : List (GeneratorRun C)} {run : GeneratorRun C} (hrun : run ∈ runs)
    {file : FileWrite C} (hfile : file ∈ run.writes tools args) :
    (workloadDir tools args runs).Has file :=
  writes_has (Or.inl (List.mem_flatMap.mpr ⟨run, hrun, hfile⟩))

theorem dir_manifest {runs : List (GeneratorRun C)} (hcover : Covered tools args runs) :
    (workloadDir tools args runs).manifest = some args.manifest := by
  obtain ⟨run, hrun, hwrote⟩ := hcover.1
  have hmem : FileWrite.manifest args.manifest ∈ run.writes tools args := by
    unfold GeneratorRun.writes generate
    split
    · exact List.mem_cons_self
    · rename_i files hfiles
      have hfirst : files ≠ 0 := fun h => hwrote (h ▸ hfiles)
      rw [show files = files - 1 + 1 by omega, List.take_succ_cons]
      exact List.mem_cons_self
  obtain ⟨m, hm⟩ := Option.isSome_iff_exists.mp (dir_has hrun hmem)
  rw [hm, (dir_right tools args runs).manifest m hm]

/-- One uninterrupted run gets through every block. -/
theorem covered_whole (hprove : ∀ block, Proves tools prove block) :
    Covered tools args [⟨0, prove, none⟩] := by
  refine ⟨⟨_, List.mem_singleton_self _, by simp⟩, ?_⟩
  intro block _
  refine ⟨_, List.mem_singleton_self _, Nat.zero_le _, fun b _ _ => hprove b, ?_⟩
  intro files h
  cases h

/-- The files of every block of a covered workload are there, and right. -/
theorem dir_files {runs : List (GeneratorRun C)} (hpos : 0 < args.numAccounts.toNat)
    (hmax : args.numAccounts.toNat ≤ 2 ^ 31)
    (hcover : Covered tools args runs) {block : Nat} (hblock : block < args.numBlocks.toNat)
    {state : State} {txs : List Tx} (hmade : Made args block state txs) :
    ∃ proof, guestMain C state txs = some (C.publicValues proof) ∧
      C.verifyProof tools.vkey proof = true ∧
      (workloadDir tools args runs).transactions block = some txs ∧
      (workloadDir tools args runs).proof block = some proof ∧
      (workloadDir tools args runs).commitJson block =
        some (savedCommit tools args block state txs (C.publicValues proof)) := by
  have hright := dir_right tools args runs
  obtain ⟨run, hrun, hdone⟩ := hcover.2 block hblock
  obtain ⟨txs', proof', info', ht, hp, hi⟩ := run_finishes hpos hmax hblock hdone
  obtain ⟨txs₁, htxs⟩ := Option.isSome_iff_exists.mp (dir_has hrun ht)
  obtain ⟨proof, hproof⟩ := Option.isSome_iff_exists.mp (dir_has hrun hp)
  obtain ⟨info, hinfo⟩ := Option.isSome_iff_exists.mp (dir_has hrun hi)
  obtain ⟨state₁, hmade₁⟩ := hright.transactions block txs₁ htxs
  obtain ⟨state₂, txs₂, hmade₂, hguest, hverify⟩ := hright.proof block proof hproof
  obtain ⟨state₃, txs₃, commit, hmade₃, hguest', hsaved⟩ := hright.commitJson block info hinfo
  obtain ⟨rfl, rfl⟩ := hmade.unique hmade₁
  obtain ⟨rfl, rfl⟩ := hmade.unique hmade₂
  obtain ⟨rfl, rfl⟩ := hmade.unique hmade₃
  cases hguest.symm.trans hguest'
  exact ⟨proof, hguest, hverify, htxs, hproof, by rw [hinfo, hsaved]⟩

theorem replayBlock_ok {block : Nat} {state : State} {txs : List Tx} {proof : C.Proof}
    (hguest : guestMain C state txs = some (C.publicValues proof))
    (hverify : C.verifyProof tools.vkey proof = true) (htxs : dir.transactions block = some txs)
    (hproof : dir.proof block = some proof)
    (hinfo : dir.commitJson block =
      some (savedCommit tools args block state txs (C.publicValues proof))) :
    replayBlock tools dir block state = .ok (applyBlock state txs).1 := by
  obtain ⟨hpre, hpost, hhash⟩ := guestMain_eq_some.mp hguest
  unfold replayBlock
  simp [hinfo, htxs, hproof, hpre, hpost, hhash, hverify, savedCommit]

/-- The replay goes through the ledgers the generator went through. -/
theorem replayBlocks_ok {runs : List (GeneratorRun C)} (hpos : 0 < args.numAccounts.toNat)
    (hmax : args.numAccounts.toNat ≤ 2 ^ 31)
    (hcover : Covered tools args runs) (rounds : Nat) {block : Nat} {state : State} {seed : UInt64}
    (hrounds : block + rounds ≤ args.numBlocks.toNat) (hat : At args block state seed) :
    ∃ state' seed', replayBlocks tools (workloadDir tools args runs) rounds block state =
      .ok state' ∧ At args (block + rounds) state' seed' := by
  induction rounds generalizing block state seed with
  | zero => exact ⟨state, seed, rfl, hat⟩
  | succ rounds ih =>
    obtain ⟨txs, seed', htxs, _⟩ := generateTxs_some args.numTxs.toNat hpos seed
    have hmade : Made args block state txs := ⟨seed, seed', hat, htxs⟩
    obtain ⟨proof, hguest, hverify, hdirTxs, hdirProof, hdirInfo⟩ :=
      dir_files hpos hmax hcover (by omega) hmade
    have hblock := replayBlock_ok hguest hverify hdirTxs hdirProof hdirInfo
    obtain ⟨state', last, hrest, hend⟩ := ih (by omega) (hat.next htxs)
    refine ⟨state', last, ?_, ?_⟩
    · unfold replayBlocks
      rw [hblock]
      exact hrest
    · rw [show block + (rounds + 1) = block + 1 + rounds by omega]
      exact hend

/-- A workload that some runs of the generator produced together replays without
a mismatch. What is saved about a block is what the guest commits to and what one
uninterrupted run would have saved. -/
theorem generated_workload_replays (tools : Tools C) (args : GeneratorArgs)
    (hmin : 1 ≤ args.numAccounts.toNat) (hmax : args.numAccounts.toNat ≤ 2 ^ 31)
    (runs : List (GeneratorRun C)) (hcover : Covered tools args runs) (prove : Prover C)
    (hprove : ∀ block, Proves tools prove block) :
    (∃ state, runWorkload tools (workloadDir tools args runs) = .ok state) ∧
      ∀ block < args.numBlocks.toNat, ∃ state txs commit,
        replayBlocks tools (workloadDir tools args runs) block 0 (genesisState args.manifest) =
          .ok state ∧
        computeStateRoot C state = some commit.preStateRoot ∧
        computeStateRoot C (applyBlock state txs).1 = some commit.postStateRoot ∧
        hashTransactions C txs = commit.txHash ∧ guestMain C state txs = some commit ∧
        (workloadDir tools args runs).transactions block = some txs ∧
        (workloadDir tools args runs).commitJson block =
          some ⟨UInt32.ofNat block, tools.hexEncode commit.preStateRoot,
            tools.hexEncode commit.postStateRoot, tools.hexEncode commit.txHash,
            (applyBlock state txs).2, args.numTxs⟩ ∧
        (workloadDir tools args [⟨0, prove, none⟩]).transactions block = some txs ∧
        (workloadDir tools args [⟨0, prove, none⟩]).commitJson block =
          (workloadDir tools args runs).commitJson block := by
  have hstart : At args 0 (genesisState args.manifest) 12345 := rfl
  constructor
  · obtain ⟨state, _, hreplay, _⟩ :=
      replayBlocks_ok hmin hmax hcover args.numBlocks.toNat (by omega) hstart
    refine ⟨state, ?_⟩
    unfold runWorkload
    rw [dir_manifest hcover]
    exact hreplay
  · intro block hblock
    obtain ⟨state, seed, hreplay, hat⟩ :=
      replayBlocks_ok hmin hmax hcover block (by omega) hstart
    rw [Nat.zero_add] at hat
    obtain ⟨txs, seed', htxs, _⟩ := generateTxs_some args.numTxs.toNat hmin seed
    have hmade : Made args block state txs := ⟨seed, seed', hat, htxs⟩
    obtain ⟨proof, hguest, _, hdirTxs, _, hdirInfo⟩ := dir_files hmin hmax hcover hblock hmade
    obtain ⟨proof', hguest', _, hfullTxs, _, hfullInfo⟩ :=
      dir_files hmin hmax (covered_whole hprove) hblock hmade
    rw [← Option.some.inj (hguest.symm.trans hguest')] at hfullInfo
    obtain ⟨hpre, hpost, hhash⟩ := guestMain_eq_some.mp hguest
    exact ⟨state, txs, _, hreplay, hpre, hpost, hhash, hguest, hdirTxs, hdirInfo, hfullTxs, by
      rw [hfullInfo, hdirInfo]⟩

end

/-- The prover of a cryptography whose proofs are the public values themselves. -/
def honestProver {pad : Nat} {table : List (List UInt8)}
    {hex : String → Option (Nat ⊕ List UInt8)} : Prover (tabled pad table hex) :=
  fun _ state txs => (guestMain (tabled pad table hex) state txs).map (fun commit => (true, commit))

theorem honestProver_proves {pad : Nat} {table : List (List UInt8)}
    {hex : String → Option (Nat ⊕ List UInt8)} (tools : Tools (tabled pad table hex))
    (block : Nat) : Proves tools honestProver block := by
  intro state txs commit hguest
  exact ⟨(true, commit), by rw [honestProver, hguest]; rfl, rfl, rfl⟩

namespace Quartet

def tools : Tools crypto := ⟨fun _ => "", ()⟩

/-- Three blocks of two transfers between two accounts. -/
def threeRounds : GeneratorArgs := ⟨3, 2, 2, 10⟩

/-- The first run stops after a block and the transactions of the next. -/
def twoRuns : List (GeneratorRun crypto) := [⟨0, honestProver, some 5⟩, ⟨1, honestProver, none⟩]

theorem twoRuns_cover : Covered tools threeRounds twoRuns := by
  refine ⟨⟨_, List.mem_cons_self, by simp⟩, ?_⟩
  intro block hblock
  cases block with
  | zero =>
    exact ⟨_, List.mem_cons_self, Nat.zero_le _, fun b _ _ => honestProver_proves _ b, by simp⟩
  | succ block =>
    refine ⟨⟨1, honestProver, none⟩, by simp [twoRuns], Nat.succ_le_succ (Nat.zero_le _),
      fun b _ _ => honestProver_proves _ b, ?_⟩
    intro files h
    cases h

end Quartet

theorem quartet_replays :
    Covered Quartet.tools Quartet.threeRounds Quartet.twoRuns ∧
      (∃ state, runWorkload Quartet.tools
        (workloadDir Quartet.tools Quartet.threeRounds Quartet.twoRuns) = .ok state) ∧
      (workloadDir Quartet.tools Quartet.threeRounds [⟨0, honestProver, none⟩]).commitJson
        2 = (workloadDir Quartet.tools Quartet.threeRounds Quartet.twoRuns).commitJson 2 := by
  obtain ⟨hreplay, hsaved⟩ := generated_workload_replays Quartet.tools Quartet.threeRounds
    (by decide) (by decide) Quartet.twoRuns Quartet.twoRuns_cover honestProver
    (honestProver_proves Quartet.tools)
  obtain ⟨_, _, _, _, _, _, _, _, _, _, _, hsame⟩ := hsaved 2 (by decide)
  exact ⟨Quartet.twoRuns_cover, hreplay, hsame⟩

end ZkStf
