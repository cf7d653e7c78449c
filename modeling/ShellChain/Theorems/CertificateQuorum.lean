import ShellChain.Certificates
import ShellChain.Lemmas.Finality
import ShellChain.Block
import ShellChain.Sample

/-!
# What a commit certificate proves

A certificate that a node accepts carries a signature of each signer it names, and the weights of these distinct signers pass
two thirds of the total. The weights are those of signers, however many entries name one.
-/

namespace ShellChain

def certificateSigners (J : CertificateJson) (cert : Bytes) : Finset Address :=
  ((decodeCommitCertificate J cert).map fun signatures => signatures.keys.toFinset).getD ∅

/-- The signer is a current validator, and its signature in the certificate verifies for the block under its registered key,
with the algorithm of its address. -/
def SignedBy (Γ : Ctx) (J : CertificateJson) (env : CertificateEnv) (blockHash : ShellHash) (cert : Bytes) (signer : Address) :
    Prop :=
  ∃ weight pubkey signatures sig, env.validatorWeights.get signer = some weight ∧ env.signerPubkey signer = some pubkey ∧
    decodeCommitCertificate J cert = some signatures ∧ signatures.lookup signer = some sig ∧
    inferSignatureTypeFromAddress Γ env.registry pubkey signer = some sig.sigType ∧
    Γ.verify pubkey blockHash.bytes sig = some true

section

variable {Γ : Ctx} {J : CertificateJson} {env : CertificateEnv} {blockHash : ShellHash} {cert : Bytes}

/-- A signature that adds a weight is one of a validator and verifies. -/
theorem certifiedWeight_some {signer : Address} {sig : PQSignature} {weight : Nat}
    (h : certifiedWeight Γ env blockHash signer sig = some weight) :
    env.validatorWeights.get signer = some weight ∧ ∃ pubkey, env.signerPubkey signer = some pubkey ∧
      inferSignatureTypeFromAddress Γ env.registry pubkey signer = some sig.sigType ∧
      Γ.verify pubkey blockHash.bytes sig = some true := by
  simp only [certifiedWeight, Option.bind_eq_bind, Option.bind_eq_some_iff] at h
  obtain ⟨w, hw, pubkey, hkey, sigType, htype, h⟩ := h
  split_ifs at h with hallowed halgo hverify
  obtain rfl := Option.some.inj h
  have halgo := Decidable.not_not.mp halgo
  exact ⟨hw, pubkey, hkey, by rw [halgo, htype], hverify⟩

/-- The loop passes when every signature adds a weight, and its sum is at most the weight of the distinct signers. -/
theorem foldlM_certifiedWeight {entries : List (Sigma fun _ : Address => PQSignature)} (hnodup : entries.NodupKeys)
    {signed total : Nat}
    (h : entries.foldlM (fun signed e => (certifiedWeight Γ env blockHash e.1 e.2).map (saturatingAdd signed)) signed =
      some total) : (∀ e ∈ entries, ∃ weight, certifiedWeight Γ env blockHash e.1 e.2 = some weight) ∧
      total ≤ signed + env.validatorWeights.weightOfSet entries.keys.toFinset := by
  induction entries generalizing signed with
  | nil =>
    obtain rfl := Option.some.inj h
    exact ⟨(fun e he => nomatch he), Nat.le_add_right _ _⟩
  | cons e entries ih =>
    obtain ⟨hfresh, hnodup⟩ := List.nodupKeys_cons.mp hnodup
    rw [List.foldlM_cons, Option.bind_eq_bind, Option.bind_eq_some_iff] at h
    obtain ⟨next, hnext, h⟩ := h
    obtain ⟨weight, hweight, rfl⟩ := Option.map_eq_some_iff.mp hnext
    obtain ⟨hentries, hle⟩ := ih hnodup h
    refine ⟨fun e' he' => ?_, ?_⟩
    · rcases List.mem_cons.mp he' with rfl | he'
      · exact ⟨weight, hweight⟩
      · exact hentries e' he'
    · have hkeys : (e :: entries).keys.toFinset = insert e.1 entries.keys.toFinset := by
        rw [List.keys_cons, List.toFinset_cons]
      have hnew : e.1 ∉ entries.keys.toFinset := fun hmem => hfresh (List.mem_toFinset.mp hmem)
      have hsum : env.validatorWeights.weightOfSet (insert e.1 entries.keys.toFinset) =
          env.validatorWeights.weightOf e.1 + env.validatorWeights.weightOfSet entries.keys.toFinset := Finset.sum_insert hnew
      have hw : env.validatorWeights.weightOf e.1 = weight := by
        have hget : env.validatorWeights.weights.lookup e.1 = some weight := (certifiedWeight_some hweight).1
        rw [ValidatorWeights.weightOf, WeightedQuorum.weightOf, hget, Option.getD_some]
      have hadd := saturatingAdd_le signed weight
      rw [hkeys, hsum, hw]
      omega

/-- The signers of an accepted certificate hold the least weight above two thirds of the total. -/
theorem quorum_of_verify (h : verifyCommitCertificate Γ J env blockHash cert = true) :
    (∀ signer ∈ certificateSigners J cert, SignedBy Γ J env blockHash cert signer) ∧
      2 * env.validatorWeights.total / 3 + 1 ≤ env.validatorWeights.weightOfSet (certificateSigners J cert) := by
  unfold verifyCommitCertificate at h
  split at h
  · cases h
  · next signatures hdecode =>
    split_ifs at h with hzero
    split at h
    · cases h
    · next signed hsigned =>
      obtain ⟨hentries, hle⟩ := foldlM_certifiedWeight signatures.nodupKeys hsigned
      have hsigners : certificateSigners J cert = signatures.keys.toFinset := by
        rw [certificateSigners, hdecode, Option.map_some, Option.getD_some]
      rw [hsigners]
      constructor
      · intro signer hmem
        obtain ⟨sig, hlookup⟩ := Option.isSome_iff_exists.mp
          (AList.lookup_isSome.mpr (AList.mem_keys.mpr (List.mem_toFinset.mp hmem)))
        obtain ⟨weight, hweight⟩ := hentries ⟨signer, sig⟩ (AList.mem_lookup_iff.mp hlookup)
        obtain ⟨hget, pubkey, hkey, htype, hverify⟩ := certifiedWeight_some hweight
        exact ⟨weight, pubkey, signatures, sig, hget, hkey, hdecode, hlookup, htype, hverify⟩
      · have hquorum := FinalityState.strictQuorumWeight_eq (Nat.pos_of_ne_zero hzero) env.validatorWeights.total_le
        rw [hquorum, decide_eq_true_eq] at h
        rw [Nat.zero_add] at hle
        exact Nat.le_trans h hle

end

/-- An accepted certificate is signed by distinct current validators that hold the least weight above two thirds of the
total; with any certificate that is accepted under the same weights it shares signers of more than a third of the total. -/
theorem certificate_sound (Γ : Ctx) (J : CertificateJson) (env : CertificateEnv) (blockHash : ShellHash) (cert : Bytes)
    (h : verifyCommitCertificate Γ J env blockHash cert = true) :
    (∀ signer ∈ certificateSigners J cert, SignedBy Γ J env blockHash cert signer) ∧
      2 * env.validatorWeights.total / 3 + 1 ≤ env.validatorWeights.weightOfSet (certificateSigners J cert) ∧
      ∀ (env' : CertificateEnv) (blockHash' : ShellHash) (cert' : Bytes), env'.validatorWeights = env.validatorWeights →
        verifyCommitCertificate Γ J env' blockHash' cert' = true →
        env.validatorWeights.total <
          3 * env.validatorWeights.weightOfSet (certificateSigners J cert ∩ certificateSigners J cert') := by
  obtain ⟨hsigned, hquorum⟩ := quorum_of_verify h
  refine ⟨hsigned, hquorum, fun env' blockHash' cert' hweights h' => ?_⟩
  obtain ⟨-, hquorum'⟩ := quorum_of_verify h'
  rw [hweights] at hquorum'
  unfold ValidatorWeights.weightOfSet at hquorum hquorum'
  exact WeightedQuorum.third_lt_inter _ _ _ _ (by omega) (by omega)
    (WeightedQuorum.sum_weightOf_le_total env.validatorWeights.weights _)

namespace DoubledEntry

def key : Bytes :=
  [1]

/-- The hexadecimal digit of a value, in lower case. -/
def lowerDigit (n : UInt8) : UInt8 :=
  if n < 10 then n + 0x30 else n - 10 + 0x61

def addressText (a : Address) : Bytes :=
  [0x30, 0x78] ++ a.bytes.flatMap fun b => [lowerDigit (b / 16), lowerDigit (b % 16)]

/-- One validator of weight one. -/
def env : CertificateEnv where
  registry := .fromAllowlist
  knownAuthorities := [⟨sampleAddress key, key⟩].toAList
  getPubkey _ := none
  validatorWeights := { weights := [⟨sampleAddress key, 1⟩].toAList, total_le := by decide }

/-- The signature of the validator. -/
def vote : PQSignature :=
  ⟨.mlDsa65, sampleSign key (ShellHash.repeatByte 5).bytes⟩

/-- The JSON text of the signature: its type, and its data in decimal. -/
def voteText : Bytes :=
  ascii "\x7b\"sig_type\":\"MlDsa65\",\"data\":[" ++
    [0x2c].intercalate (vote.data.map fun b => ascii (toString b.toNat)) ++ ascii "]\x7d"

/-- The JSON text of a certificate with two spellings of the validator's address. -/
def doubledText : Bytes :=
  ascii "\x7b\"" ++ addressText (sampleAddress key) ++ ascii "\":" ++ voteText ++ ascii ",\"Address(" ++
    addressText (sampleAddress key) ++ ascii ")\":" ++ voteText ++ ascii "\x7d"

/-- A parser that reads this text. -/
def json : CertificateJson where
  signatures cert := if cert = doubledText then some [⟨addressText (sampleAddress key), vote⟩,
    ⟨addressOpen ++ addressText (sampleAddress key) ++ [0x29], vote⟩].toAList else none
  texts _ := none

/-- Two entries of one signer are accepted as one. -/
theorem doubled_entry_counts_once :
    certificateSigners json doubledText = {sampleAddress key} ∧
      2 * env.validatorWeights.total / 3 + 1 ≤ env.validatorWeights.weightOfSet (certificateSigners json doubledText) :=
  ⟨by decide +kernel, (certificate_sound sampleCtx json env (.repeatByte 5) doubledText (by decide +kernel)).2.1⟩

end DoubledEntry

end ShellChain
