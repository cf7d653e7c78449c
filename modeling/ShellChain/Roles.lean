import ShellChain.Amendment
import ShellChain.Transaction
import ShellChain.Votes

/-!
# The messages a validator key signs

One key signs in eight roles. Each role has its content, the byte string that is signed for it, and a verifier. Four roles
sign the digest of a preimage and three sign a byte string as it is. A vote signs the block hash it names, which the handler
of votes takes from the network: nothing in the message says that it is the hash of a header.
-/

namespace ShellChain

/-- The roles of a validator key. -/
inductive Role
  | sender
  | session
  | paymaster
  | proposerSeal
  | vote
  | attestation
  | viewChange
  | amendment
  deriving DecidableEq, Repr

/-- What is signed in a role. A seal is for the block of a header, a vote is for any block hash. -/
inductive SignedContent
  | sender (stx : SignedTransaction)
  | session (auth : SessionAuth) (chainId : Nat)
  | paymaster (stx : SignedTransaction)
  | proposerSeal (hdr : BlockHeader)
  | vote (blockHash : ShellHash)
  | attestation (a : Attestation)
  | viewChange (msg : ViewChangeMessage)
  | amendment (a : ProofAmendment)

namespace SignedContent

/-- The role a content is signed in. -/
def role : SignedContent → Role
  | .sender _ => .sender
  | .session _ _ => .session
  | .paymaster _ => .paymaster
  | .proposerSeal _ => .proposerSeal
  | .vote _ => .vote
  | .attestation _ => .attestation
  | .viewChange _ => .viewChange
  | .amendment _ => .amendment

/-- The byte string that is signed; there is none for the paymaster of a transaction without one. -/
def message (Γ : Ctx) : SignedContent → Option Bytes
  | .sender stx => some (stx.senderSigningHash Γ).bytes
  | .session auth chainId => some (auth.authHash Γ chainId).bytes
  | .paymaster stx => (stx.paymasterSigningHash Γ).map ShellHash.bytes
  | .proposerSeal hdr => some (hdr.hash Γ).bytes
  | .vote blockHash => some blockHash.bytes
  | .attestation a => some a.ownSigningMessage
  | .viewChange msg => some msg.ownSigningMessage
  | .amendment a => some (a.signingMessage Γ)

/-- The byte string whose digest is signed, in the roles that sign a digest. -/
def preimage (Γ : Ctx) : SignedContent → Option Bytes
  | .sender stx =>
    match stx.aaBundle with
    | some bundle =>
      if stx.tx.txType ≠ aaBundleTxType then some (stx.tx.signingPreimage stx.signature.sigType.asU8)
      else some (stx.batchPreimage Γ bundle)
    | none => some (stx.tx.signingPreimage stx.signature.sigType.asU8)
  | .session auth chainId => some (auth.authPreimage chainId)
  | .paymaster stx =>
    if (stx.aaBundle.bind AaBundle.paymaster).isSome then (stx.batchSigningHash Γ).map stx.paymasterPreimage else none
  | .proposerSeal hdr => some (hdr.canonicalEncode Γ)
  | _ => none

/-- The verifier of a role takes a signature under a key for a content. -/
def Accepts (Γ : Ctx) (env : AttestationEnv) (pubkey : Bytes) (sig : PQSignature) : SignedContent → Prop
  | .sender stx => Γ.verify pubkey (stx.senderSigningHash Γ).bytes sig = some true
  | .session auth chainId => Γ.verify pubkey (auth.authHash Γ chainId).bytes sig = some true
  | .paymaster stx => (stx.paymasterSigningHash Γ).any fun h => Γ.verify pubkey h.bytes sig = some true
  | .proposerSeal hdr => verifySeal Γ hdr sig pubkey = true
  | .vote blockHash => ∃ voter, verifyVoteSignature Γ env voter pubkey blockHash sig = true
  | .attestation a => verifyAttestationSignature Γ env { a with signature := sig.data } pubkey = .ok ()
  | .viewChange msg => verifyViewChangeSignature Γ env { msg with signature := sig.data } pubkey = .ok ()
  | .amendment a => ∃ envelope auth, decodeProverAuthentication envelope = .ok auth ∧ auth.publicKey = pubkey ∧
      auth.signature = sig.data ∧
      ({ a with proverSignature := envelope }).verifyProverAuthentication Γ env.registry = .ok ()

end SignedContent

end ShellChain
