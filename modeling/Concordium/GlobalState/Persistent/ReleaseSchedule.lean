import Concordium.Library.AscMap
import Concordium.Library.Machine
import Concordium.Library.TimedSet
import Concordium.GlobalState.Persistent.Trie.FiniteMap

/-!
Contract: the top-level release schedule, which records for every account with a pending
release the time of its first one, in its two implementations: `LegacyReleaseSchedule`, a map
from timestamps to sets of account addresses (protocol versions 1 to 4), and
`NewReleaseSchedule`, a trie from timestamps to sets of account indices (from protocol
version 5).

Owns:
- `Timestamp`, a `Word64` of milliseconds with its order and its big-endian trie key;
- both implementations of `addAccountRelease`, `updateAccountRelease` and
  `processReleasesUntil`, with the where-clauses the source gives them (`addAcc`, `remAcc`, the
  loop `go`), and their machines `LegacyReleaseSchedule.apply` and `NewReleaseSchedule.apply`;
- the schedule both stand for: a `TimedSet` of accounts at their first release times, with
  `Schedule.step`, `Schedule.answer` and the callers' preconditions `Schedule.Admissible`.

Does not own: that the implementations refine the schedule (the `Refinement` module below this
one), their serialization, or migration from one to the other.

## Modelling choices

Account sets are `Finset`s and `Set.toList` is `Finset.sort`, which lists them ascending as
`Data.Set` does. A `Map.alter` whose function calls `error` is `AscMap.alterF` into `Except`,
and a `Trie.adjust` whose function calls `error` carries the error in its answer, which the
caller rethrows: either way the operation fails with the source's message. The trie loop of
`processReleasesUntil` recurses on the trie's own size, the number of entries it can delete;
running out of it is an error the refinement shows never happens.
-/

set_option autoImplicit false

namespace Concordium.GlobalState.Persistent.ReleaseSchedule

/-! ## Timestamps -/

/-- `Timestamp`: milliseconds since the Unix epoch, in a `Word64`. -/
structure Timestamp where
  tsMillis : UInt64

namespace Timestamp

theorem toNat_injective : Function.Injective fun ts : Timestamp => ts.tsMillis.toNat := by
  rintro ⟨first⟩ ⟨second⟩ same
  exact congrArg Timestamp.mk (UInt64.toNat_inj.mp same)

/-- The order the source derives from `Word64`. -/
instance : LinearOrder Timestamp :=
  LinearOrder.lift' (fun ts => ts.tsMillis.toNat) toNat_injective

theorem lt_iff {first second : Timestamp} :
    first < second ↔ first.tsMillis.toNat < second.tsMillis.toNat :=
  Iff.rfl

/-- `Timestamp maxBound`. -/
def maxBound : Timestamp :=
  ⟨18446744073709551615⟩

instance : OrderTop Timestamp where
  top := maxBound
  le_top ts := by
    show ts.tsMillis.toNat ≤ (18446744073709551615 : UInt64).toNat
    have fits : ts.tsMillis.toNat < 2 ^ 64 := ts.tsMillis.toNat_lt_size
    have top : (18446744073709551615 : UInt64).toNat = 18446744073709551615 := by decide
    omega

/-- A timestamp is a trie key through its `Word64`. -/
instance : Trie.FixedTrieKey Timestamp where
  unpackKey ts := Trie.unpackKey ts.tsMillis
  packKey bytes := ⟨Trie.packKey bytes⟩

theorem fixedWidth : Trie.FixedWidth Timestamp 8 where
  positive := by decide
  unpackLength ts := Trie.word64_fixedWidth.unpackLength ts.tsMillis
  packUnpack ts := congrArg Timestamp.mk (Trie.word64_fixedWidth.packUnpack ts.tsMillis)

/-- The big-endian bytes of timestamps compare as the timestamps do, which is what lets the trie
find the earliest release. -/
theorem ordered : Trie.OrdFixedTrieKey Timestamp := by
  intro first second
  rw [lt_iff, ← UInt64.lt_iff_toNat_lt]
  exact Trie.word64_ordered first.tsMillis second.tsMillis

end Timestamp

open Timestamp (maxBound)

variable {α β ρ : Type} [LinearOrder α] [LinearOrder β]

/-! ## The legacy release schedule -/

/-- `LegacyReleaseSchedule`: the first release time, the accounts at each time, and how many
accounts there are. -/
structure LegacyReleaseSchedule (α : Type) where
  lrsFirstTimestamp : Timestamp
  lrsMap : AscMap Timestamp (Finset α)
  lrsEntryCount : UInt64

namespace LegacyReleaseSchedule

def addAccountRelease (ts : Timestamp) (addr : α) (rs : LegacyReleaseSchedule α) :
    LegacyReleaseSchedule α :=
  { lrsFirstTimestamp := min rs.lrsFirstTimestamp ts
    lrsMap := rs.lrsMap.alter (addAcc addr) ts
    lrsEntryCount := 1 + rs.lrsEntryCount }
where
  addAcc (addr : α) : Option (Finset α) → Option (Finset α)
    | none => some {addr}
    | some accs => some (insert addr accs)

/-- The source's `addAcc` here is the one of `addAccountRelease`, written out again. -/
def updateAccountRelease (oldts ts : Timestamp) (addr : α) (rs : LegacyReleaseSchedule α) :
    Except String (LegacyReleaseSchedule α) := do
  let remMap ← rs.lrsMap.alterF (remAcc addr) oldts
  pure
    { lrsFirstTimestamp := min rs.lrsFirstTimestamp ts
      lrsMap := remMap.alter (addAccountRelease.addAcc addr) ts
      lrsEntryCount := rs.lrsEntryCount }
where
  remAcc (addr : α) : Option (Finset α) → Except String (Option (Finset α))
    | none => throw "updateAccountRelease: no entry at expected release time"
    | some s =>
        let s' := s.erase addr
        pure (if s' = ∅ then none else some s')

def processReleasesUntil (ts : Timestamp) (rs : LegacyReleaseSchedule α) :
    List α × LegacyReleaseSchedule α :=
  if ts < rs.lrsFirstTimestamp then ([], rs)
  else
    let result := go ts rs []
    (result.2, result.1)
where
  /-- `deleteFindMin` finds nothing exactly where the source's `Map.null` guard holds. -/
  go (ts : Timestamp) (rs : LegacyReleaseSchedule α) (accum : List α) :
      LegacyReleaseSchedule α × List α :=
    match _found : rs.lrsMap.deleteFindMin with
    | none => (⟨maxBound, AscMap.empty, 0⟩, accum)
    | some ((minTS, accs), newMap) =>
        if minTS ≤ ts then
          go ts { rs with
              lrsMap := newMap
              lrsEntryCount := rs.lrsEntryCount - UInt64.ofNat accs.card }
            (accum ++ accs.sort (· ≤ ·))
        else ({ rs with lrsFirstTimestamp := minTS }, accum)
  termination_by rs.lrsMap.toAscList.length
  decreasing_by exact (AscMap.deleteFindMin_spec _found).2.2.2

end LegacyReleaseSchedule

/-! ## The new release schedule -/

/-- `AccountSet`: a set of account indices. -/
structure AccountSet (β : Type) where
  theAccountSet : Finset β

/-- `NewReleaseSchedule`: the first release time, and the accounts at each time in a trie. -/
structure NewReleaseSchedule (β : Type) where
  nrsFirstTimestamp : Timestamp
  nrsMap : Trie.TrieN Timestamp (AccountSet β)

namespace NewReleaseSchedule

def addAccountRelease (ts : Timestamp) (ai : β) (rs : NewReleaseSchedule β) :
    Except String (NewReleaseSchedule β) := do
  let (_, nrsMap) ← Trie.adjust (addAcc ai) ts rs.nrsMap
  pure { nrsFirstTimestamp := min ts rs.nrsFirstTimestamp, nrsMap := nrsMap }
where
  addAcc (ai : β) : Option (AccountSet β) → Unit × Trie.Alteration (AccountSet β)
    | none => ((), .insert ⟨{ai}⟩)
    | some ⟨accs⟩ => ((), .insert ⟨insert ai accs⟩)

/-- The source's `addAcc` here is the one of `addAccountRelease`, written out again. -/
def updateAccountRelease (oldts newts : Timestamp) (ai : β) (rs : NewReleaseSchedule β) :
    Except String (NewReleaseSchedule β) := do
  let (removed, rsRem) ← Trie.adjust (remAcc ai) oldts rs.nrsMap
  removed
  let (_, nrsMap) ← Trie.adjust (addAccountRelease.addAcc ai) newts rsRem
  pure { nrsFirstTimestamp := min newts rs.nrsFirstTimestamp, nrsMap := nrsMap }
where
  remAcc (ai : β) : Option (AccountSet β) → Except String Unit × Trie.Alteration (AccountSet β)
    | none => (throw "updateAccountRelease: no entry at expected release time", .noChange)
    | some ⟨accs⟩ =>
        let accs' := accs.erase ai
        if accs' = ∅ then (pure (), .remove) else (pure (), .insert ⟨accs'⟩)

def processReleasesUntil (ts : Timestamp) (rs : NewReleaseSchedule β) :
    Except String (List β × NewReleaseSchedule β) :=
  if ts < rs.nrsFirstTimestamp then pure ([], rs)
  else go ts (Trie.storedSize rs.nrsMap).toNat [] rs.nrsMap
where
  /-- The source's loop, with the number of entries it may still delete. -/
  go (ts : Timestamp) : Nat → List β → Trie.TrieN Timestamp (AccountSet β) →
      Except String (List β × NewReleaseSchedule β)
    | fuel, accum, m => do
        match ← Trie.findMin m with
        | none => pure (accum, ⟨maxBound, m⟩)
        | some (minTS, accs) =>
            if ts < minTS then pure (accum, ⟨minTS, m⟩)
            else
              match fuel with
              | 0 => throw "processReleasesUntil: more entries than the trie counts"
              | fuel + 1 => do
                  let newMap ← Trie.delete minTS m
                  go ts fuel (accum ++ accs.theAccountSet.sort (· ≤ ·)) newMap

end NewReleaseSchedule

/-- `emptyReleaseSchedule` before protocol version 5. -/
def emptyReleaseSchedule.rsP0 : LegacyReleaseSchedule α :=
  { lrsFirstTimestamp := maxBound, lrsMap := AscMap.empty, lrsEntryCount := 0 }

/-- `emptyReleaseSchedule` from protocol version 5. -/
def emptyReleaseSchedule.rsP1 : NewReleaseSchedule β :=
  { nrsFirstTimestamp := maxBound, nrsMap := Trie.empty }

/-! ## Operations -/

/-- The operations of `ReleaseScheduleOperations`, on accounts referred to by `ρ`. -/
inductive Operation (ρ : Type) where
  | addAccountRelease (ts : Timestamp) (account : ρ)
  | updateAccountRelease (oldts ts : Timestamp) (account : ρ)
  | processReleasesUntil (ts : Timestamp)

/-- The same operation on the account's other reference. -/
def Operation.map {σ : Type} (f : ρ → σ) : Operation ρ → Operation σ
  | .addAccountRelease ts account => .addAccountRelease ts (f account)
  | .updateAccountRelease oldts ts account => .updateAccountRelease oldts ts (f account)
  | .processReleasesUntil ts => .processReleasesUntil ts

/-- What an operation answers: nothing for an update, the accounts `processReleasesUntil`
released, or the error of a failed operation. -/
inductive Response (ρ : Type) where
  | updated
  | released (accounts : List ρ)
  | failed (message : String)
  deriving DecidableEq

/-- The same response on the accounts' other references. -/
def Response.map {σ : Type} (f : ρ → σ) : Response ρ → Response σ
  | .updated => .updated
  | .released accounts => .released (accounts.map f)
  | .failed message => .failed message

/-- A response and the next schedule; a failed operation leaves the schedule as it was. -/
def settle {S : Type} (unchanged : S) : Except String (Response ρ × S) → Response ρ × S
  | .ok result => result
  | .error message => (.failed message, unchanged)

def LegacyReleaseSchedule.apply :
    Operation α → LegacyReleaseSchedule α → Response α × LegacyReleaseSchedule α
  | .addAccountRelease ts addr, rs => (.updated, addAccountRelease ts addr rs)
  | .updateAccountRelease oldts ts addr, rs =>
      settle rs ((fun next => (.updated, next)) <$> updateAccountRelease oldts ts addr rs)
  | .processReleasesUntil ts, rs =>
      (.released (processReleasesUntil ts rs).1, (processReleasesUntil ts rs).2)

def NewReleaseSchedule.apply :
    Operation β → NewReleaseSchedule β → Response β × NewReleaseSchedule β
  | .addAccountRelease ts ai, rs =>
      settle rs ((fun next => (.updated, next)) <$> addAccountRelease ts ai rs)
  | .updateAccountRelease oldts ts ai, rs =>
      settle rs ((fun next => (.updated, next)) <$> updateAccountRelease oldts ts ai rs)
  | .processReleasesUntil ts, rs =>
      settle rs ((fun result => (.released result.1, result.2)) <$> processReleasesUntil ts rs)

/-! ## The schedule both implement -/

namespace Schedule

/-- An operation on the accounts at their first release times: a new account joins, an updated
one moves, and processing takes out every account due by the time. -/
def step : Operation α → TimedSet α Timestamp → TimedSet α Timestamp
  | .addAccountRelease ts account, schedule => schedule.set ts account
  | .updateAccountRelease _ ts account, schedule => schedule.set ts account
  | .processReleasesUntil ts, schedule => schedule.dropUntil ts

/-- The answer under the references `ref`: processing lists the accounts due by the time,
earliest first and, at one time, in the order of their references. -/
def answer [LinearOrder ρ] (ref : α → ρ) : Operation α → TimedSet α Timestamp → Response ρ
  | .processReleasesUntil ts, schedule => .released (schedule.listUntil ref ts)
  | _, _ => .updated

def apply [LinearOrder ρ] (ref : α → ρ) (operation : Operation α)
    (schedule : TimedSet α Timestamp) : Response ρ × TimedSet α Timestamp :=
  (answer ref operation schedule, step operation schedule)

/-- The preconditions of `ReleaseScheduleOperations`: an account added has no release yet, and an
account updated has its release at the old time, which the new one does not pass. -/
def Admissible (schedule : TimedSet α Timestamp) : Operation α → Prop
  | .addAccountRelease _ account => account ∉ schedule.members
  | .updateAccountRelease oldts ts account =>
      account ∈ schedule.members ∧ schedule.time account = oldts ∧ ts ≤ oldts
  | .processReleasesUntil _ => True

instance (schedule : TimedSet α Timestamp) :
    (operation : Operation α) → Decidable (Admissible schedule operation)
  | .addAccountRelease _ account => inferInstanceAs (Decidable (account ∉ schedule.members))
  | .updateAccountRelease oldts ts account =>
      inferInstanceAs
        (Decidable (account ∈ schedule.members ∧ schedule.time account = oldts ∧ ts ≤ oldts))
  | .processReleasesUntil _ => inferInstanceAs (Decidable True)

end Schedule

end Concordium.GlobalState.Persistent.ReleaseSchedule
