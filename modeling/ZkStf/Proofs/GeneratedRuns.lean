import ZkStf.Model.Setup
import ZkStf.Proofs.CalmBound
import ZkStf.Proofs.Conservation
import ZkStf.Proofs.WorkloadReplay

namespace ZkStf
open ZkStf.Basis
variable {C : Crypto}

/-- The block a file belongs to. -/
def FileWrite.block : FileWrite C → Option Nat
  | .manifest _ => none
  | .transactions block _ => some block
  | .proof block _ => some block
  | .commitJson block _ => some block

section
variable {tools : Tools C} {args : GeneratorArgs} {prove : Prover C} {dir : Directory C}
  {runs : List (GeneratorRun C)} {block : Nat}

theorem generateBlock_block (tools : Tools C) (args : GeneratorArgs) (prove : Prover C)
    (block : Nat) (state : State) (seed : UInt64) :
    ∀ file ∈ (generateBlock tools args prove block state seed).1, file.block = some block := by
  intro file hfile
  rcases generateBlock_cases tools args prove block state seed with
    heq | ⟨txs, seed', _, heq | ⟨proof, _, _, heq⟩⟩
  · simp [heq] at hfile
  · rw [heq] at hfile
    cases List.mem_singleton.mp hfile
    rfl
  · rw [heq] at hfile
    simp only [List.mem_cons, List.not_mem_nil, or_false] at hfile
    rcases hfile with rfl | rfl | rfl <;> rfl

theorem generateBlocks_below (rounds : Nat) {state : State} {seed : UInt64} {file : FileWrite C}
    (hfile : file ∈ generateBlocks tools args prove rounds block state seed) :
    ∀ b, file.block = some b → block ≤ b ∧ b < block + rounds := by
  induction rounds generalizing block state seed with
  | zero =>
    cases List.mem_singleton.mp hfile
    simp [FileWrite.block]
  | succ rounds ih =>
    intro b hb
    rw [generateBlocks] at hfile
    rcases List.mem_append.mp hfile with hfile | hfile
    · have := generateBlock_block tools args prove block state seed file hfile
      rw [hb] at this
      cases this
      omega
    · cases hround : (generateBlock tools args prove block state seed).2 with
      | none => simp [hround] at hfile
      | some next =>
        rw [hround] at hfile
        have := ih hfile b hb
        omega

/-- No run writes files beyond the blocks it was asked for. -/
theorem run_below (run : GeneratorRun C) {file : FileWrite C}
    (hfile : file ∈ run.writes tools args) :
    ∀ b, file.block = some b → b < args.numBlocks.toNat := by
  have hall : file ∈ generate tools args run.prove run.resumeFrom := by
    unfold GeneratorRun.writes at hfile
    split at hfile
    · exact hfile
    · exact List.mem_of_mem_take hfile
  intro b hb
  rcases List.mem_cons.mp hall with rfl | hall
  · cases hb
  cases hskip : skipBlocks args run.resumeFrom.toNat
      (generateInitialState args.numAccounts args.initialBalance) 12345 with
  | none => simp [hskip] at hall
  | some start =>
    rw [hskip] at hall
    have hlt := generateBlocks_below _ hall b hb
    omega

theorem commitJson_below (tools : Tools C) (args : GeneratorArgs) (runs : List (GeneratorRun C))
    (hinfo : ((workloadDir tools args runs).commitJson block).isSome) :
    block < args.numBlocks.toNat := by
  have hwritten : ∀ (files : List (FileWrite C)) (dir : Directory C),
      ((files.foldl Directory.write dir).commitJson block).isSome →
      (dir.commitJson block).isSome ∨ ∃ file ∈ files, file.block = some block := by
    intro files
    induction files with
    | nil => exact fun dir h => Or.inl h
    | cons file rest ih =>
      intro dir h
      rcases ih _ h with h | ⟨file', hmem, hb⟩
      · cases file with
        | commitJson b info =>
          by_cases hb : block = b
          · exact Or.inr ⟨_, List.mem_cons_self, by rw [hb]; rfl⟩
          · exact Or.inl (by simpa [Directory.write, Function.update_of_ne hb] using h)
        | _ => exact Or.inl h
      · exact Or.inr ⟨file', List.mem_cons_of_mem _ hmem, hb⟩
  rcases hwritten _ _ hinfo with h | ⟨file, hmem, hb⟩
  · cases h
  · obtain ⟨run, _, hfile⟩ := List.mem_flatMap.mp hmem
    exact run_below run hfile block hb

end

section
variable {args : GeneratorArgs}

theorem generateTxs_length {numTxs : Nat} {numAccounts : UInt32} {seed seed' : UInt64}
    {txs : List Tx} (h : generateTxs numTxs numAccounts seed = some (txs, seed')) :
    txs.length = numTxs := by
  induction numTxs generalizing seed seed' txs with
  | zero =>
    cases h
    rfl
  | succ numTxs ih =>
    rw [generateTxs] at h
    split at h
    · cases h
    · obtain ⟨rest, hrest, hcons⟩ := Option.map_eq_some_iff.mp h
      cases hcons
      rw [List.length_cons, ih hrest]

/-- The generator hands out no more than every account's initial balance. -/
theorem initialState_total (numAccounts : UInt32) (initialBalance : UInt64) :
    (generateInitialState numAccounts initialBalance).total ≤
      numAccounts.toNat * initialBalance.toNat := by
  have hfold : ∀ (l : List Nat) (s : State),
      (l.foldl (fun s i => s.setBalance (UInt32.ofNat i) initialBalance) s).total ≤
        s.total + l.length * initialBalance.toNat := by
    intro l
    induction l with
    | nil => exact fun s => by simp
    | cons i rest ih =>
      intro s
      have hrest := ih (s.setBalance (UInt32.ofNat i) initialBalance)
      have hset := total_setBalance s (UInt32.ofNat i) initialBalance
      rw [List.foldl_cons, List.length_cons, Nat.add_mul]
      omega
  have hall := hfold (List.range numAccounts.toNat) .new
  rw [List.length_range, show State.new.total = 0 from rfl, Nat.zero_add] at hall
  exact hall

/-- No block of the generator makes money. -/
theorem At.total_lt (hpos : 0 < args.numAccounts.toNat)
    (hmoney : args.numAccounts.toNat * args.initialBalance.toNat < 2 ^ 64) {block : Nat}
    {state : State} {seed : UInt64} (hat : At args block state seed) : state.total < 2 ^ 64 := by
  induction block generalizing state seed with
  | zero =>
    cases hat
    exact (initialState_total _ _).trans_lt hmoney
  | succ block ih =>
    obtain ⟨before, seed₀, hat₀, _⟩ := at_exists hpos block
    obtain ⟨txs, seed₁, htxs, _⟩ := generateTxs_some args.numTxs.toNat hpos seed₀
    cases (hat₀.next htxs).symm.trans hat
    have hbefore := ih hat₀
    rw [applyBlock, ((block_total (before, 0) txs).2 hbefore).1]
    exact hbefore

end

/-- A workload that the generator has produced, and a node's view of it. -/
structure Produced (tools : Tools C) (args : GeneratorArgs) (runs : List (GeneratorRun C))
    (wl : Workload C) : Prop where
  accounts : 1 ≤ args.numAccounts.toNat
  countable : args.numAccounts.toNat ≤ 2 ^ 31
  covered : Covered tools args runs
  hex : ∀ h, C.hexDecode (tools.hexEncode h) = some h
  loaded : Workload.load (workloadDir tools args runs) = some wl

section
variable {tools : Tools C} {args : GeneratorArgs} {runs : List (GeneratorRun C)} {wl : Workload C}

theorem Produced.eq (h : Produced tools args runs wl) :
    wl = (workloadDir tools args runs).workload args.manifest := by
  have hload := h.loaded
  rw [Workload.load, dir_manifest h.covered] at hload
  exact (Option.some.inj hload).symm

theorem Produced.made (h : Produced tools args runs wl) (block : Nat) :
    ∃ state txs, Made args block state txs := by
  obtain ⟨state, seed, hat, _⟩ := at_exists h.accounts block
  obtain ⟨txs, seed', htxs, _⟩ := generateTxs_some args.numTxs.toNat h.accounts seed
  exact ⟨state, txs, seed, seed', hat, htxs⟩

/-- What a node finds at a height. -/
theorem Produced.files (h : Produced tools args runs wl) {height : UInt64}
    (hlt : height.toNat < args.numBlocks.toNat) {state : State} {txs : List Tx}
    (hmade : Made args height.toNat state txs) :
    ∃ proof, guestMain C state txs = some (C.publicValues proof) ∧
      C.verifyProof tools.vkey proof = true ∧ wl.transactions height = some txs ∧
      wl.proof height = some proof ∧
      ∃ info, info.txsTotal = args.numTxs ∧
        wl.block height = .ok ⟨hashTransactions C txs, info, height, height⟩ := by
  obtain ⟨proof, hguest, hverify, htxs, hproof, hinfo⟩ :=
    dir_files h.accounts h.countable h.covered hlt hmade
  have hsmall : height.toNat < 2 ^ 32 := hlt.trans args.numBlocks.toNat_lt
  have hhash := (guestMain_eq_some.mp hguest).2.2
  rw [h.eq]
  refine ⟨proof, hguest, hverify, htxs, hproof, ?_⟩
  have hbig : ¬ 4294967296 ≤ height.toNat := by omega
  simp [Workload.block, blockAt, Directory.workload, hinfo, savedCommit, CommitJson.blockMeta,
    h.hex, hhash, hbig]

theorem Produced.numBlocks (h : Produced tools args runs wl) :
    wl.manifest.numBlocks = args.numBlocks := by
  rw [h.eq]
  rfl

/-- A block that can be read is one the generator was asked for. -/
theorem Produced.readable (h : Produced tools args runs wl) {height : UInt64} {block : BlockRef C}
    (hblock : wl.block height = .ok block) : height.toNat < args.numBlocks.toNat := by
  apply commitJson_below tools args runs
  by_contra hnone
  rw [h.eq] at hblock
  simp [Workload.block, blockAt, Directory.workload, Option.not_isSome_iff_eq_none.mp hnone]
    at hblock

theorem Produced.wellFormed (h : Produced tools args runs wl) : WellFormed wl := by
  intro height
  rw [h.numBlocks]
  constructor
  · rintro ⟨block, hblock⟩
    exact h.readable hblock
  · intro hlt
    obtain ⟨state, txs, hmade⟩ := h.made height.toNat
    obtain ⟨_, _, _, _, _, info, _, hblock⟩ := h.files hlt hmade
    exact ⟨_, hblock⟩

/-- Every validator of an experiment accepts the blocks. -/
theorem Produced.vets {w : Wiring C} (h : Produced tools args runs w.workload) {mode : Mode}
    {speed : Speed} {slowDelay : UInt64}
    (hv : w.validator = buildValidator tools.vkey mode speed slowDelay) : Vets w := by
  intro height block hblock req input out htxs hproof hran
  obtain ⟨state, txs, hmade⟩ := h.made height.toNat
  obtain ⟨proof, _, hverify, hfile, hproofFile, _⟩ := h.files (h.readable hblock) hmade
  rw [hv, buildValidator] at hran
  generalize (if speed = .slow then slowDelay else 0) = delay at hran
  split at hran
  · simp only [runValidation, htxs, hfile] at hran
    split at hran
    · cases hran
    · cases hran
      rfl
  · simp only [runValidation, hproof, hproofFile, hverify, ↓reduceIte] at hran
    cases hran
    rfl

/-- Consecutive proofs fit together, whoever reads them. -/
theorem Produced.rootsChain {w : Wiring C} (h : Produced tools args runs w.workload) :
    RootsChain w := by
  intro vkey _ k k' proof proof' hnext hk hk'
  have hright := dir_right tools args runs
  have hproof : (workloadDir tools args runs).proof k.toNat = some proof := by
    have := hk.1
    rwa [h.eq] at this
  have hproof' : (workloadDir tools args runs).proof k'.toNat = some proof' := by
    have := hk'.1
    rwa [h.eq] at this
  obtain ⟨state, txs, ⟨seed, seed', hat, htxs⟩, hguest, _⟩ := hright.proof _ _ hproof
  obtain ⟨state', txs', ⟨_, _, hat', _⟩, hguest', _⟩ := hright.proof _ _ hproof'
  have hstep := hat.next htxs
  rw [hnext] at hat'
  cases hstep.symm.trans hat'
  have hpost := (guestMain_eq_some.mp hguest).2.1
  have hpre := (guestMain_eq_some.mp hguest').1
  exact Option.some.inj (hpre.symm.trans hpost)

/-- The replay of the nodes goes through the ledgers of the generator. -/
theorem Produced.replays (h : Produced tools args runs wl) {k : Nat}
    (hk : k ≤ args.numBlocks.toNat) {state : State} {seed : UInt64} (hat : At args k state seed) :
    replay wl (genesisState wl.manifest) k = some state := by
  induction k generalizing state seed with
  | zero =>
    cases hat
    rw [h.eq]
    rfl
  | succ k ih =>
    obtain ⟨before, seed₀, hat₀, _⟩ := at_exists h.accounts k
    obtain ⟨txs, seed₁, htxs, _⟩ := generateTxs_some args.numTxs.toNat h.accounts seed₀
    cases (hat₀.next htxs).symm.trans hat
    have hsmall := args.numBlocks.toNat_lt
    have hheight := UInt64.toNat_ofNat_of_lt' (show k < 2 ^ 64 by omega)
    have hmade : Made args (UInt64.ofNat k).toNat before txs := by
      rw [hheight]
      exact ⟨_, _, hat₀, htxs⟩
    obtain ⟨_, _, _, hfile, _, _⟩ := h.files (by omega) hmade
    rw [replay, ih (by omega) hat₀, Option.bind_some, hfile]
    rfl

/-- Where the nodes' build checks its sums, they fit as soon as all the money of the
ledger fits one balance and the sleep after a block its counter. -/
theorem Produced.sumsFit {w : Wiring C} (h : Produced tools args runs w.workload) {mode : Mode}
    {speed : Speed} {slowDelay : UInt64}
    (hv : w.validator = buildValidator tools.vkey mode speed slowDelay)
    (hfits : w.overflowChecks = true →
      args.numAccounts.toNat * args.initialBalance.toNat < 2 ^ 64 ∧
        slowDelay.toNat * args.numTxs.toNat < 2 ^ 64) : SumsFit w := by
  intro hchecks delay hdelay height block hblock
  obtain ⟨hmoney, hsleep⟩ := hfits hchecks
  have hheight := h.readable hblock
  obtain ⟨before, seed, hat, _⟩ := at_exists h.accounts height.toNat
  obtain ⟨txs, seed', htxs, _⟩ := generateTxs_some args.numTxs.toNat h.accounts seed
  obtain ⟨_, _, _, hfile, _, info, htotal, hread⟩ := h.files hheight ⟨seed, seed', hat, htxs⟩
  cases hread.symm.trans hblock
  constructor
  · rw [hv, buildValidator] at hdelay
    split at hdelay
    · cases hdelay
      rw [htotal]
      split
      · exact hsleep
      · simp
    · cases hdelay
  · intro state txs' hreplay htxs'
    cases (h.replays (Nat.le_of_lt hheight) hat).symm.trans hreplay
    cases hfile.symm.trans htxs'
    apply block_fits (hat.total_lt h.accounts hmoney)
    rw [generateTxs_length htxs]
    exact args.numTxs.toNat_lt

end

section
variable {K : Cluster C} {rs : Nat → Replica C} {log : Nat → List (Event C)} {s : System C}
  {i t : Nat} {tools : Tools C} {args : GeneratorArgs} {runs : List (GeneratorRun C)}

/-- Where a node of a calm run ends. -/
theorem Calmed.ends (h : Calmed K rs) (hi : K.Honest i) (hdone : finished (K.wiring i) (rs i)) :
    (rs i).rs.lastExecutedHeight = (K.numBlocks : Int) - 1 := by
  obtain ⟨m, hm, hlast, _⟩ := (h.marching i hi).executed_first
  have hall : (K.numBlocks : Int) ≤ (rs i).rs.lastExecutedHeight + 1 := hdone
  omega

/-- What a node knows of the ledger: a re-executing one all balances, a verifying
one their root. -/
def Reflects (validator : Validator C) (r : Replica C) (state : State) : Prop :=
  match validator with
  | .reexecute _ => r.liveState = state
  | .verify _ => computeStateRoot C state = some r.chainedRoot

theorem Produced.at_end (h : Produced tools args runs K.workload) : ∃ state seed,
    At args K.numBlocks state seed ∧
      runWorkload tools (workloadDir tools args runs) = .ok state := by
  have hstart : At args 0 (genesisState args.manifest) 12345 := rfl
  obtain ⟨state, seed, hreplay, hat⟩ := replayBlocks_ok h.accounts h.countable h.covered
    args.numBlocks.toNat (by omega) hstart
  refine ⟨state, seed, ?_, ?_⟩
  · rw [Cluster.numBlocks, h.numBlocks]
    simpa using hat
  · unfold runWorkload
    rw [dir_manifest h.covered]
    exact hreplay

/-- A node that has come to the end reflects the ledger of the generator. -/
theorem Produced.reflects (h : Produced tools args runs K.workload)
    (hinj : Function.Injective (nodeHash (C := C)))
    (hgen : ∀ node : Node C, nodeHash node ≠ genesisHash C) (hblocks : 1 ≤ K.numBlocks)
    (hK : K.Faultless) (hcalm : K.Calm log s) (hi : K.Honest i)
    (hdone : finished (K.wiring i) (s i).replica) {state : State} {seed : UInt64}
    (hat : At args K.numBlocks state seed) : Reflects (K.validator i) (s i).replica state := by
  have hc := hcalm.calmed hinj hgen hK
  have hlast : (s i).replica.rs.lastExecutedHeight = (K.numBlocks : Int) - 1 := hc.ends hi hdone
  cases hv : K.validator i with
  | reexecute delay =>
    have hreexec : (K.wiring i).validator.reexecutes = true := by
      change (K.validator i).reexecutes = true
      rw [hv]
      rfl
    have hlive := (reach_folded hinj hreexec (hcalm.reach.machine i)
      (hc.tree_consistent hgen hinj hi)).live
    have hreplay := h.replays (by rw [Cluster.numBlocks, h.numBlocks]) hat
    rw [hlast, show ((K.numBlocks : Int) - 1 + 1).toNat = K.numBlocks by omega] at hlive
    exact Option.some.inj (hlive.symm.trans hreplay)
  | verify vkey =>
    rcases (reach_chained hinj (w := K.wiring i) hv (hcalm.reach.machine i)).root with
      hnone | ⟨height, proof, hheight, hacc, hroot⟩
    · omega
    have hproof : (workloadDir tools args runs).proof height.toNat = some proof := by
      have hfile : K.workload.proof height = some proof := hacc.1
      rwa [h.eq] at hfile
    obtain ⟨before, txs, ⟨seed₀, seed₁, hat₀, htxs⟩, hguest, _⟩ :=
      (dir_right tools args runs).proof _ _ hproof
    have hnext := hat₀.next htxs
    rw [show height.toNat + 1 = K.numBlocks by omega] at hnext
    cases hnext.symm.trans hat
    change computeStateRoot C _ = some _
    rw [hroot]
    exact (guestMain_eq_some.mp hguest).2.1

/-- The whole experiment: over a workload that the generator has produced, in any
mode and with any mix of fast and slow nodes, a cluster without faults and early
timers ends after a bounded number of steps, and every node then reflects the
ledger that the replay of the workload ends with. If the nodes check their sums, all
the money of the ledger must fit one balance and a slow node's sleep its counter. -/
theorem generated_cluster_completes (hinj : Function.Injective (nodeHash (C := C)))
    (hgen : ∀ node : Node C, nodeHash node ≠ genesisHash C) (hacyc : Acyclic C)
    (h : Produced tools args runs K.workload) (hblocks : 1 ≤ args.numBlocks.toNat)
    (hfree : K.byz = ∅) (hsigns : K.SignsValidly) (mode : Mode) (speed : Nat → Speed)
    (slowDelay : UInt64)
    (hval : ∀ i, K.Honest i →
      K.validator i = buildValidator tools.vkey mode (speed i) slowDelay)
    (hfits : K.overflowChecks = true →
      args.numAccounts.toNat * args.initialBalance.toNat < 2 ^ 64 ∧
        slowDelay.toNat * args.numTxs.toNat < 2 ^ 64)
    (hrun : K.Prompt t log s) :
    t ≤ K.maxSteps ∧ (K.Pending log s ∨
      ∃ state, runWorkload tools (workloadDir tools args runs) = .ok state ∧
        ∀ i, K.Honest i → finished (K.wiring i) (s i).replica ∧
          Reflects (K.validator i) (s i).replica state) := by
  have hK : K.Faultless := ⟨hfree, hsigns, fun i hi => h.vets (w := K.wiring i) (hval i hi)⟩
  refine ⟨hrun.bounded hinj hgen hK, ?_⟩
  refine (hrun.progress hinj hgen hacyc hK h.wellFormed (fun i _ => h.rootsChain)
    (fun i hi => h.sumsFit (w := K.wiring i) (hval i hi) hfits)).imp_right ?_
  intro hdone
  obtain ⟨state, seed, hat, hreplay⟩ := h.at_end
  refine ⟨state, hreplay, fun i hi => ⟨hdone i hi, ?_⟩⟩
  refine h.reflects hinj hgen ?_ hK (hrun.calm hinj hgen hK) hi (hdone i hi) hat
  rw [Cluster.numBlocks, h.numBlocks]
  exact hblocks

end

/-! A generated workload of three blocks and the two nodes of a hybrid experiment. -/
namespace Hybrid

def hexEncode : Nat ⊕ List UInt8 → String
  | .inl k => String.ofList (List.replicate k 'a')
  | .inr l => String.ofList ('b' :: l.map Char.ofUInt8)

def hexDecode (text : String) : Option (Nat ⊕ List UInt8) :=
  match text.toList with
  | 'b' :: rest => some (.inr (rest.map Char.toUInt8))
  | all => some (.inl all.length)

theorem hexDecode_encode (h : Nat ⊕ List UInt8) : hexDecode (hexEncode h) = some h := by
  cases h with
  | inl k => cases k <;> simp [hexEncode, hexDecode, List.replicate_succ]
  | inr l =>
    have hbyte : Char.toUInt8 ∘ Char.ofUInt8 = id := by
      funext b
      change b.toUInt32.toUInt8 = b
      simp
    simp [hexEncode, hexDecode, hbyte]

abbrev crypto : Crypto := tabled 0 [] hexDecode

def tools : Tools crypto := ⟨hexEncode, ()⟩

def runs : List (GeneratorRun crypto) := [⟨0, honestProver, none⟩]

def speed (i : Nat) : Speed := if i = 0 then .fast else .slow

def cluster : Cluster crypto where
  n := 2
  small := Pair.cluster.small
  byz := ∅
  key i := i
  secret i := i
  workload := (workloadDir tools Quartet.threeRounds runs).workload Quartet.threeRounds.manifest
  validator i := buildValidator tools.vkey .verify (speed i) 1000
  timeoutBaseMs := 1000
  overflowChecks := true

theorem produced : Produced tools Quartet.threeRounds runs cluster.workload := by
  have hcover : Covered tools Quartet.threeRounds runs :=
    covered_whole (honestProver_proves tools)
  refine ⟨by decide, by decide, hcover, hexDecode_encode, ?_⟩
  rw [Workload.load, dir_manifest hcover]
  rfl

end Hybrid

/-- One node re-executes and the other verifies. -/
theorem hybrid_completes : ∃ t log s state, Hybrid.cluster.Prompt t log s ∧
    runWorkload Hybrid.tools (workloadDir Hybrid.tools Quartet.threeRounds Hybrid.runs) =
      .ok state ∧
    (s 0).replica.liveState = state ∧
    computeStateRoot Hybrid.crypto state = some (s 1).replica.chainedRoot := by
  have hruns := fun t (a : (Nat → List (Event _)) × System _)
      (h : Hybrid.cluster.Prompt t a.1 a.2) =>
    generated_cluster_completes tabled_nodes_apart tabled_nodes_fresh (tabled_acyclic (by simp))
      Hybrid.produced (by decide) rfl (fun i d _ => tabled_verifies i d) .verify Hybrid.speed 1000
      (fun _ _ => rfl) (fun _ => by decide) h
  obtain ⟨t, a, hrun, state, hreplay, hdone⟩ := bounded_run_ends
    (fun t (a : (Nat → List (Event _)) × System _) => Hybrid.cluster.Prompt t a.1 a.2) _
    (fun t a h => (hruns t a h).1) (fun t a h => (hruns t a h).2.symm.imp_right
      (fun ⟨i, ev, m, hi, hdue, hstep⟩ => ⟨(_, _), h.step i ev m hi hdue hstep⟩))
    (a := (_, _)) (Cluster.Prompt.start (K := Hybrid.cluster))
  have hboth : Hybrid.cluster.Honest 0 ∧ Hybrid.cluster.Honest 1 := by decide
  exact ⟨t, a.1, a.2, state, hrun, hreplay, (hdone 0 hboth.1).2, (hdone 1 hboth.2).2⟩

end ZkStf
