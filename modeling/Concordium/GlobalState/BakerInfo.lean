/-!
Contract: the baker records that leader election and the choice of the finalization committee
read.

Owns: `BakerInfo` (the baker id and its verification keys, the keys as opaque numbers),
`FullBakerInfo` with its stake as a 64-bit amount, and `FullBakers`.

Does not own: the serialization and hashing of bakers, and the pool information of
`FullBakerInfoEx`.
-/

set_option autoImplicit false

namespace Concordium.Types.Accounts

/-- `BakerInfo` of `Concordium.Types.Accounts`, in the base library. -/
structure BakerInfo where
  bakerIdentity : Nat
  bakerElectionVerifyKey : Nat
  bakerSignatureVerifyKey : Nat
  bakerAggregationVerifyKey : Nat
deriving DecidableEq, Repr

end Concordium.Types.Accounts

namespace Concordium.GlobalState.BakerInfo

open Concordium.Types.Accounts

structure FullBakerInfo where
  theBakerInfo : BakerInfo
  bakerStake : UInt64
deriving DecidableEq, Repr

/-- `FullBakers`: all bakers in ascending order of baker id, and their total stake. -/
structure FullBakers where
  fullBakerInfos : List FullBakerInfo
  bakerTotalStake : UInt64
deriving DecidableEq, Repr

end Concordium.GlobalState.BakerInfo
