import ShellChain.Theorems.Quorum
import ShellChain.Theorems.Poisoning
import ShellChain.Theorems.CurrentWeights
import ShellChain.Theorems.Penalties
import ShellChain.Theorems.SessionBinding
import ShellChain.Theorems.TxIdentifiers
import ShellChain.Theorems.AggregateCommitments
import ShellChain.Theorems.BodyBinding
import ShellChain.Theorems.Agreement
import ShellChain.Theorems.ForkAdoption
import ShellChain.Theorems.DoubleSigning
import ShellChain.Theorems.SettledSources
import ShellChain.Theorems.WitnessRetention
import ShellChain.Theorems.Restart
import ShellChain.Theorems.SettlementInputs
import ShellChain.Theorems.AuthoritySet
import ShellChain.Theorems.ForkChoiceHead
import ShellChain.Theorems.FinalizedFlags
import ShellChain.Theorems.SigningPreimage
import ShellChain.Theorems.SettlementOrder
import ShellChain.Theorems.Authentication
import ShellChain.Theorems.Recovery
import ShellChain.Theorems.GovernanceVotes
import ShellChain.Theorems.AlgorithmQuorum
import ShellChain.Theorems.FailedCalls
import ShellChain.Theorems.CommitmentBinding
import ShellChain.Theorems.ViewAdvance
import ShellChain.Theorems.CertificateQuorum
import ShellChain.Theorems.ProposalVoting
import ShellChain.Theorems.Staking
import ShellChain.Theorems.RegistryMirror
import ShellChain.Theorems.AddressIsolation
import ShellChain.Theorems.OverlayView
import ShellChain.Theorems.CanonicalIndexes
import ShellChain.Theorems.RoundQuorums
import ShellChain.Theorems.ProposerRotation
import ShellChain.Theorems.FinalizedViews
import ShellChain.Theorems.SlashedProposers
import ShellChain.Theorems.NativeContext
import ShellChain.Theorems.BundleBinding
import ShellChain.Theorems.PoolCapacity
import ShellChain.Theorems.GasPrices
import ShellChain.Theorems.BandwidthBuckets
import ShellChain.Theorems.BlobPrices
import ShellChain.Theorems.SigBatchCircuit
import ShellChain.Theorems.ProverAuthentication
