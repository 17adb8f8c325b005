import Napqes.Misc.Bytes
import Napqes.Misc.Schedule
import Napqes.Misc.TrialDivision
import Napqes.Basic
import Napqes.Misc.Except
import Napqes.Misc.Generator
import Napqes.Rust.Basic
import Napqes.Rust.Key
import Napqes.Rust.Derive
import Napqes.Rust.Proofs.Domains
import Napqes.Rust.Padding
import Napqes.Rust.Tokens
import Napqes.Format.Tokens
import Napqes.Rust.Proofs.Tokens
import Napqes.Rust.Block
import Napqes.Rust.BlockV7
import Napqes.Format.Block
import Napqes.Rust.Proofs.Block
import Napqes.Rust.Proofs.BlockV7
import Napqes.Rust.Proofs.Total
import Napqes.Rust.Stream
import Napqes.Misc.Pieces
import Napqes.Format.Stream
import Napqes.Rust.Proofs.StreamEncrypt
import Napqes.Rust.Proofs.StreamDecrypt
import Napqes.Rust.Proofs.StreamIntegrity
import Napqes.Rust.StreamEncryptor
import Napqes.Rust.Proofs.StreamEncryptor
import Napqes.Misc.ReplayWindow
import Napqes.Misc.Simulation
import Napqes.Misc.LossyChannel
import Napqes.Rust.OtFrame
import Napqes.Rust.Proofs.OtFrame
import Napqes.Rust.OtReceiver
import Napqes.Rust.Proofs.OtReplay
import Napqes.Rust.Proofs.OtRoundTrip
import Napqes.Misc.ReadExact
import Napqes.Rust.Protocols
import Napqes.Rust.Ingress
import Napqes.Rust.Gateway
import Napqes.Rust.Egress
import Napqes.Rust.Proofs.Gateway
import Napqes.Rust.Proofs.Ingress
import Napqes.Rust.Proofs.Transport
import Napqes.Rust.Proofs.Egress
import Napqes.Misc.Run
import Napqes.Rust.Kem
import Napqes.Rust.Proofs.Kem
import Napqes.Rust.KemExchange
import Napqes.Rust.Proofs.KemExchange
import Napqes.Rust.Proofs.KemInvariant
import Napqes.Rust.Proofs.KemLossless
import Napqes.Rust.Proofs.KemAgreement
import Napqes.Rust.Proofs.KemProgress
import Napqes.Rust.Rekeying
import Napqes.Rust.Proofs.Rekeying
import Napqes.Rust.Traffic
import Napqes.Rust.Proofs.Traffic
import Napqes.Rust.Tunnel
import Napqes.Rust.Proofs.Tunnel
import Napqes.Rust.Proofs.TagCheck
import Napqes.Misc.Execution
import Napqes.Rust.SelfTest
import Napqes.Rust.Proofs.SelfTest
import Napqes.Rust.Proofs.PostGate
import Napqes.Rust.Proofs.PostProgress
import Napqes.Python.Basic
import Napqes.Python.Reader
import Napqes.Python.Block
import Napqes.Python.Proofs.Block
import Napqes.Python.StreamV8
import Napqes.Python.Proofs.StreamV8
import Napqes.Python.Proofs.StreamAgreement
import Napqes.Python.Stream
import Napqes.C.Basic
import Napqes.C.Key
import Napqes.C.Derive
import Napqes.C.Tokens
import Napqes.C.Block
import Napqes.C.Stream
import Napqes.C.Proofs.Tokens
import Napqes.C.Proofs.Block
import Napqes.Agreement
import Napqes.C.Proofs.Stream
import Napqes.Python.Proofs.TagInputs
import Napqes.Format.SubNonces
import Napqes.Rust.SubNonces
import Napqes.Python.SubNonces
import Napqes.C.StreamEncrypt
import Napqes.C.Proofs.StreamEncrypt
import Napqes.SubNonces
import Napqes.C.Proofs.BlockDecrypt
import Napqes.Delivery
import Napqes.C.BlockV7
import Napqes.C.Base64
import Napqes.C.Proofs.Authenticated
import Napqes.C.Proofs.BlockV7
import Napqes.Format.BlockV7
import Napqes.Python.BlockV7
import Napqes.Python.Proofs.BlockV7
import Napqes.Rust.Proofs.ReadingV7
import Napqes.C.Proofs.ReadingV7
import Napqes.AgreementV7
import Napqes.Rust.Proofs.Protocols
import Napqes.Rust.Proofs.Primality
import Napqes.Rust.Proofs.Padding
import Napqes.PaddingAgreement
import Napqes.Misc.Distinct
import Napqes.Misc.BinarySearch
import Napqes.Rust.Keygen
import Napqes.Rust.Proofs.Keygen
import Napqes.Python.Kem
import Napqes.SeedExpansion
import Napqes.Rust.Counters
import Napqes.Rust.Proofs.Counters
import Napqes.Rust.Checked
import Napqes.Rust.Proofs.Checked
import Napqes.Rust.Hybrid
import Napqes.Rust.Proofs.Hybrid
import Napqes.Python.Proofs.StreamV7
import Napqes.Python.Proofs.StreamAe
import Napqes.Python.Proofs.ReadingAe
import Napqes.Python.Proofs.StreamStrict
import Napqes.Python.Proofs.StreamRoundTrip
import Napqes.Python.Proofs.StreamFailures
import Napqes.Python.Proofs.StreamFrames
import Napqes.C.Proofs.Threshold
import Napqes.Python.Proofs.Varint
import Napqes.C.Proofs.Base64
import Napqes.C.Proofs.TagInput
import Napqes.Rust.Proofs.KeyStore
import Napqes.C.Proofs.Keygen
import Napqes.Misc.Fips180
import Napqes.C.Proofs.Sha256
import Napqes.Rust.Proofs.Dnp3Crc
import Napqes.Python.Proofs.StreamV8Encrypt
import Napqes.Python.Proofs.StreamIntegrity
import Napqes.Rust.Proofs.KeyIntegrity
import Napqes.StreamAgreement
import Napqes.Python.Hybrid
import Napqes.HybridAgreement
import Napqes.Rust.Proofs.SealingV7
import Napqes.Rust.Proofs.BerlekampMassey
import Napqes.Rust.Proofs.MatrixRank
import Napqes.SealingV7
import Napqes.Misc.Base64
import Napqes.Rust.Text
import Napqes.Python.Text
import Napqes.Python.Proofs.Text
import Napqes.Rust.Proofs.Text
import Napqes.C.Proofs.Text
import Napqes.TextAgreement
import Napqes.Rust.Integrity
import Napqes.Rust.Proofs.Integrity
import Napqes.Python.Keygen
import Napqes.Python.Proofs.Keygen
import Napqes.KeyGeneration
