import ShellChain.Header
import ShellChain.Lib.TransitionSystem
import Mathlib.Data.Finset.Basic

/-!
# Penalties and the challenge lifecycle

A validator is penalized for equivocation, proved by two signed headers of one height, and for a proof challenge that nobody
answers in time. The definitions follow `consensus/src/slashing.rs`, the slashing part of `consensus/src/wpoa.rs`,
`node/src/node/challenge_lifecycle.rs` and the handlers of `node/src/node/event_loop.rs`. The penalties a node applies are
also kept in a log, which the node itself does not have: it is what the theorems are about.
-/

namespace ShellChain

/-! ## Equivocation proofs -/

/-- Two conflicting headers of one height, with the seals of their proposer. -/
structure EquivocationProof where
  offender : Address
  headerA : BlockHeader
  headerB : BlockHeader
  hashA : ShellHash
  hashB : ShellHash
  sealA : Option PQSignature
  sealB : Option PQSignature
  deriving DecidableEq

namespace EquivocationProof

def verify (Γ : Ctx) (e : EquivocationProof) : Bool :=
  if e.headerA.number ≠ e.headerB.number then false
  else if e.headerA.proposer ≠ e.offender ∨ e.headerB.proposer ≠ e.offender then false
  else e.headerA.hash Γ = e.hashA ∧ e.headerB.hash Γ = e.hashB ∧ e.hashA ≠ e.hashB

def verifySigned (Γ : Ctx) (e : EquivocationProof) (pubkey : Bytes) : Bool :=
  if ¬ e.verify Γ then false
  else match e.sealA, e.sealB with
    | some sealA, some sealB =>
      if sealA.data.isEmpty ∨ sealB.data.isEmpty then false
      else Γ.verify pubkey e.hashA.bytes sealA = some true ∧ Γ.verify pubkey e.hashB.bytes sealB = some true
    | _, _ => false

end EquivocationProof

/-! ## The penalty state of the engine -/

/-- The slashed authorities and the weight taken from each (`PenaltyState`). -/
structure PenaltyState where
  slashed : Finset Address
  reductions : HashMap Address Nat

/-- No penalties. -/
def PenaltyState.none : PenaltyState :=
  ⟨∅, ∅⟩

/-- What the slashing arithmetic of the engine reads: the weights before reductions, and the rate in basis points. -/
structure SlashingEngine where
  baseWeights : HashMap Address Nat
  slashWeightBps : Nat

namespace SlashingEngine

def effectiveWeightFor (E : SlashingEngine) (p : PenaltyState) (authority : Address) : Option Nat :=
  (E.baseWeights.lookup authority).map fun baseWeight => baseWeight - (p.reductions.lookup authority).getD 0

/-- `apply_slash`: takes the given share of the effective weight, up to the whole base weight. -/
def applySlash (E : SlashingEngine) (p : PenaltyState) (offender : Address) : PenaltyState :=
  let currentWeight := (E.effectiveWeightFor p offender).getD 1
  let slashAmount := currentWeight * E.slashWeightBps / 10000 % 2 ^ 64
  let baseWeight := (E.baseWeights.lookup offender).getD 1
  let cumulative := (p.reductions.lookup offender).getD 0
  let updated := min (saturatingAdd cumulative slashAmount) baseWeight
  ⟨insert offender p.slashed, p.reductions.insert offender updated⟩

end SlashingEngine

/-! ## The challenge lifecycle -/

def challengeTimeoutBlocks : Nat :=
  7200

def maxTrackedChallenges : Nat :=
  4096

/-- The status of a challenge. -/
inductive ChallengeStatus
  | opened
  | resolved
  | slashed
  deriving DecidableEq, Repr

/-- A tracked challenge. -/
structure ChallengeRecord where
  challengeId : ShellHash
  prover : Address
  challenger : Address
  openedAtBlock : Nat
  status : ChallengeStatus
  deriving DecidableEq

namespace ChallengeRecord

/-- An open record whose deadline has passed. -/
def timedOut (r : ChallengeRecord) (currentBlock : Nat) : Bool :=
  r.status = .opened ∧ saturatingAdd r.openedAtBlock challengeTimeoutBlocks ≤ currentBlock

/-- The record after the deadline check. -/
def afterTimeout (currentBlock : Nat) (r : ChallengeRecord) : ChallengeRecord :=
  if r.timedOut currentBlock then { r with status := .slashed } else r

/-- A terminal record is kept until twice the deadline. -/
def isKept (r : ChallengeRecord) (currentBlock : Nat) : Bool :=
  r.status = .opened ∨ currentBlock < saturatingAdd r.openedAtBlock (challengeTimeoutBlocks * 2)

end ChallengeRecord

/-- The tracked challenges, and the penalty state last written with them. -/
structure ChallengeLifecycle where
  challenges : HashMap ShellHash ChallengeRecord
  penalties : Option PenaltyState

namespace ChallengeLifecycle

def new : ChallengeLifecycle :=
  ⟨∅, none⟩

/-- `open_challenge`: refused when the id is tracked or the lifecycle is full. -/
def openChallenge (c : ChallengeLifecycle) (record : ChallengeRecord) : ChallengeLifecycle × Bool :=
  if record.challengeId ∈ c.challenges ∨ maxTrackedChallenges ≤ c.challenges.size then
    (c, false)
  else
    ({ c with challenges := c.challenges.insert record.challengeId { record with status := .opened } }, true)

/-- `resolve_challenge`: an open challenge becomes resolved. -/
def resolveChallenge (c : ChallengeLifecycle) (id : ShellHash) : ChallengeLifecycle × Option ChallengeRecord :=
  match c.challenges.lookup id with
  | none => (c, none)
  | some record =>
    if record.status ≠ .opened then
      (c, none)
    else
      let record := { record with status := .resolved }
      ({ c with challenges := c.challenges.insert id record }, some record)

/-- `check_timeouts`: the open records past their deadline become slashed and are returned, and old terminal records are
dropped. -/
def checkTimeouts (c : ChallengeLifecycle) (currentBlock : Nat) : ChallengeLifecycle × List ChallengeRecord :=
  let slashed := ((c.challenges.entries.map Sigma.snd).filter fun r => r.timedOut currentBlock).map
    (ChallengeRecord.afterTimeout currentBlock)
  let challenges := (c.challenges.mapVal (ChallengeRecord.afterTimeout currentBlock)).retain fun _ r => r.isKept currentBlock
  ({ c with challenges := challenges }, slashed)

/-- The checks of `ChallengeLifecycle::load` on a stored snapshot. The uniqueness checks on its lists hold of every
snapshot written from maps. -/
def loads (maxWeight : Nat) (c : ChallengeLifecycle) : Bool :=
  decide (c.challenges.size ≤ maxTrackedChallenges) &&
    match c.penalties with
    | none => true
    | some p => p.reductions.entries.all fun e => e.1 ∈ p.slashed ∧ e.2 ≤ maxWeight

end ChallengeLifecycle

/-! ## The node -/

/-- What a penalty is for. -/
inductive Offence
  /-- The offender sealed two blocks of this height. -/
  | equivocation (offender : Address) (height : Nat)
  /-- The challenge with this id was not answered in time. -/
  | challenge (id : ShellHash)
  deriving DecidableEq

/-- A penalty: the offence and the authority that was slashed for it. -/
structure Penalty where
  offence : Offence
  offender : Address
  deriving DecidableEq

/-- A node as the penalty handlers see it: the penalties of its engine, its challenge lifecycle, the snapshot on disk, the
log of the penalties in force, and whether it has stopped because it could not start. -/
structure PenaltyNode where
  penalties : PenaltyState
  lifecycle : ChallengeLifecycle
  disk : ChallengeLifecycle
  log : List Penalty
  stopped : Bool

/-- A node before its first penalty. -/
def PenaltyNode.start : PenaltyNode :=
  ⟨.none, .new, .new, [], false⟩

/-- What can happen to it, in any order. The flag of an input says whether the store takes the write it leads to. -/
inductive PenaltyInput
  /-- Evidence arrives. The key is what the lookup of the offender finds. -/
  | evidence (e : EquivocationProof) (pubkey : Option Bytes) (writes : Bool)
  /-- A challenge arrives. The prover is what the lookup of the amendment or of the block finds, or the zero address. -/
  | challenge (id : ShellHash) (challenger prover : Address) (headNumber : Nat) (writes : Bool)
  /-- A challenge response has been verified. -/
  | response (id : ShellHash) (writes : Bool)
  /-- A block of this height has been produced or imported. -/
  | advance (blockNumber : Nat) (writes : Bool)
  /-- The node restarts from its disk. -/
  | restart
  deriving DecidableEq

/-- The offence an evidence message proves: the offender is known and both seals verify. -/
def provenOffence (Γ : Ctx) (e : EquivocationProof) (pubkey : Option Bytes) : Option Offence :=
  match pubkey with
  | none => none
  | some key => if e.verifySigned Γ key then some (.equivocation e.offender e.headerA.number) else none

namespace PenaltyNode

/-- `update_challenge_lifecycle` with a change to write: the state is replaced once it is stored. -/
def storeLifecycle (σ : PenaltyNode) (next : ChallengeLifecycle) (writes : Bool) : PenaltyNode :=
  if writes then { σ with lifecycle := next, disk := next } else σ

/-- `persist_authority_slash`: the slash is undone when the snapshot cannot be stored. -/
def persistAuthoritySlash (E : SlashingEngine) (σ : PenaltyNode) (penalty : Penalty) (writes : Bool) : PenaltyNode :=
  let penalties := E.applySlash σ.penalties penalty.offender
  if writes then
    let next := { σ.lifecycle with penalties := some penalties }
    ⟨penalties, next, next, σ.log ++ [penalty], σ.stopped⟩
  else σ

/-- The penalties for the records that timed out: a record without a known prover is skipped. -/
def timeoutPenalties (slashed : List ChallengeRecord) : List Penalty :=
  (slashed.filter fun r => r.prover ≠ Address.zero).map fun r => ⟨.challenge r.challengeId, r.prover⟩

/-- The deadline check leaves something to write: a record timed out or was dropped. -/
def timeoutsChange (σ : PenaltyNode) (blockNumber : Nat) : Bool :=
  let checked := σ.lifecycle.checkTimeouts blockNumber
  checked.2 ≠ [] ∨ checked.1.challenges.size ≠ σ.lifecycle.challenges.size

/-- `slash_timed_out_challenges`: the slashes are undone when the snapshot cannot be stored. -/
def slashTimedOutChallenges (E : SlashingEngine) (σ : PenaltyNode) (blockNumber : Nat) (writes : Bool) : PenaltyNode :=
  let checked := σ.lifecycle.checkTimeouts blockNumber
  let applied := timeoutPenalties checked.2
  let penalties := (applied.map (·.offender)).foldl E.applySlash σ.penalties
  let next := if checked.2 = [] then checked.1 else { checked.1 with penalties := some penalties }
  if σ.timeoutsChange blockNumber ∧ writes then ⟨penalties, next, next, σ.log ++ applied, σ.stopped⟩ else σ

/-- The start of a node from its disk: the penalty state is restored from the snapshot, and `run` returns an error when the
snapshot does not load. -/
def restart (maxWeight : Nat) (σ : PenaltyNode) : PenaltyNode :=
  if σ.disk.loads maxWeight then
    { σ with lifecycle := σ.disk, penalties := σ.disk.penalties.getD .none, stopped := false }
  else { σ with stopped := true }

end PenaltyNode

def maxValidatorWeight : Nat :=
  1000000

/-- The handlers of a running node, and its start. -/
def PenaltyNode.handle (Γ : Ctx) (E : SlashingEngine) (σ : PenaltyNode) : PenaltyInput → PenaltyNode
  | .evidence e pubkey writes =>
    match provenOffence Γ e pubkey with
    | none => σ
    | some offence => σ.persistAuthoritySlash E ⟨offence, e.offender⟩ writes
  | .challenge id challenger prover headNumber writes =>
    match σ.lifecycle.openChallenge ⟨id, prover, challenger, headNumber, .opened⟩ with
    | (next, true) => σ.storeLifecycle next writes
    | (_, false) => σ
  | .response id writes =>
    match σ.lifecycle.resolveChallenge id with
    | (next, some _) => σ.storeLifecycle next writes
    | (_, none) => σ
  | .advance blockNumber writes => σ.slashTimedOutChallenges E blockNumber writes
  | .restart => σ.restart maxValidatorWeight

/-- The penalties of a node. A stopped node handles nothing until it is started again. -/
def penaltySystem (Γ : Ctx) (E : SlashingEngine) : TransitionSystem PenaltyNode PenaltyInput where
  step σ i := if σ.stopped ∧ i ≠ .restart then σ else σ.handle Γ E i

end ShellChain
