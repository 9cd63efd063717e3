import Concordium.Afgjort.CSS.NominationSet

/-!
Contract: the wire format of the messages of weak multi-valued Byzantine agreement,
`Serialize WMVBAMessage` of `Concordium.Afgjort.WMVBA`: a tag byte among fourteen, then the
message's fields; the `Seen` and `DoneReporting` messages of core-set selection carry in their tag
which of the two sets of their nomination set is not empty, and the set follows untagged. The
part that is signed, `putWMVBAMessageBody`, is the whole message but for the ticket of a
`Justified` message.

Owns:
- `FreezeMessage` of `Concordium.Afgjort.Freeze`, `ABBAMessage` of `Concordium.Afgjort.ABBA`
  (a phase being a `Word32`) and `WMVBAMessage`, over the types of values, signatures and ticket
  proofs and their formats;
- `putWMVBAMessageBody` (`none` where the source calls `error`: a `Seen` or `DoneReporting`
  message whose nomination set is empty), `putWMVBAMessage` and `getWMVBAMessage`, with
  `nominationTag` for the tag that carries the nomination set's;
- `Encodable`: what a message needs for its round trip, and the round trip
  `getWMVBAMessage_putWMVBAMessage`.

Does not own: the formats of values, signatures and ticket proofs (parameters here), or the
protocol that sends the messages.
-/

set_option autoImplicit false

namespace Concordium.Afgjort.WMVBA

open Serialize Concordium.Afgjort.CSS

/-- `FreezeMessage`: a proposal of a value, or a vote for a value or for none. -/
inductive FreezeMessage (val : Type) where
  | Proposal (value : val)
  | Vote (value : Option val)
deriving DecidableEq, Repr

/-- `ABBAMessage`, over the ticket proofs. -/
inductive ABBAMessage (ticket : Type) where
  | Justified (phase : UInt32) (choice : Bool) (ticketProof : ticket)
  | CSSSeen (phase : UInt32) (ns : NominationSet)
  | CSSDoneReporting (phase : UInt32) (choices : NominationSet)
  | WeAreDone (choice : Bool)
deriving DecidableEq, Repr

inductive WMVBAMessage (val sig ticket : Type) where
  | WMVBAFreezeMessage (message : FreezeMessage val)
  | WMVBAABBAMessage (message : ABBAMessage ticket)
  | WMVBAWitnessCreatorMessage (witness : val × sig)
deriving DecidableEq, Repr

/-- The ticket proof a message carries after its signed body: only a `Justified` message has one. -/
def justifiedTicket {val sig ticket : Type} : WMVBAMessage val sig ticket → Option ticket
  | .WMVBAABBAMessage (.Justified _ _ ticketProof) => some ticketProof
  | _ => none

/-- The tag of a `Seen` (from `5`) or `DoneReporting` (from `8`) message: which of the sets of
its nomination set is not empty; none for the empty set. -/
def nominationTag (first : UInt8) : NominationSetTag → Option UInt8
  | .NSEmpty => none
  | .NSTop => some first
  | .NSBot => some (first + 1)
  | .NSBoth => some (first + 2)

section Encoding

variable {val sig ticket : Type} (valFormat : Format val) (sigFormat : Format sig)
  (ticketFormat : Format ticket)

/-- The part of a message that is signed: all of it but the ticket of a `Justified` message. -/
def putWMVBAMessageBody : WMVBAMessage val sig ticket → Option (List UInt8)
  | .WMVBAFreezeMessage (.Proposal value) => some (putWord8 0 ++ valFormat.put value)
  | .WMVBAFreezeMessage (.Vote none) => some (putWord8 1)
  | .WMVBAFreezeMessage (.Vote (some value)) => some (putWord8 2 ++ valFormat.put value)
  | .WMVBAABBAMessage (.Justified phase false _) => some (putWord8 3 ++ putWord32be phase.toNat)
  | .WMVBAABBAMessage (.Justified phase true _) => some (putWord8 4 ++ putWord32be phase.toNat)
  | .WMVBAABBAMessage (.CSSSeen phase ns) =>
    (nominationTag 5 (nomTag ns)).map fun tag =>
      putWord8 tag ++ putWord32be phase.toNat ++ putUntaggedNominationSet ns
  | .WMVBAABBAMessage (.CSSDoneReporting phase choices) =>
    (nominationTag 8 (nomTag choices)).map fun tag =>
      putWord8 tag ++ putWord32be phase.toNat ++ putUntaggedNominationSet choices
  | .WMVBAABBAMessage (.WeAreDone false) => some (putWord8 11)
  | .WMVBAABBAMessage (.WeAreDone true) => some (putWord8 12)
  | .WMVBAWitnessCreatorMessage (value, blssig) =>
    some (putWord8 13 ++ valFormat.put value ++ sigFormat.put blssig)

/-- `put`: the body, followed by the ticket of a `Justified` message. -/
def putWMVBAMessage : WMVBAMessage val sig ticket → Option (List UInt8)
  | message@(.WMVBAABBAMessage (.Justified _ _ ticketProof)) =>
    (putWMVBAMessageBody valFormat sigFormat message).map (· ++ ticketFormat.put ticketProof)
  | message => putWMVBAMessageBody valFormat sigFormat message

def getWMVBAMessage : Get (WMVBAMessage val sig ticket) := do
  let tag ← getWord8
  match tag with
  | 0 => (fun value => .WMVBAFreezeMessage (.Proposal value)) <$> valFormat.get
  | 1 => pure (.WMVBAFreezeMessage (.Vote none))
  | 2 => (fun value => .WMVBAFreezeMessage (.Vote (some value))) <$> valFormat.get
  | 3 => do
    let phase ← getWord32be
    let ticketProof ← ticketFormat.get
    pure (.WMVBAABBAMessage (.Justified (UInt32.ofNat phase) false ticketProof))
  | 4 => do
    let phase ← getWord32be
    let ticketProof ← ticketFormat.get
    pure (.WMVBAABBAMessage (.Justified (UInt32.ofNat phase) true ticketProof))
  | 5 => do
    let phase ← getWord32be
    let ns ← getUntaggedNominationSet .NSTop
    pure (.WMVBAABBAMessage (.CSSSeen (UInt32.ofNat phase) ns))
  | 6 => do
    let phase ← getWord32be
    let ns ← getUntaggedNominationSet .NSBot
    pure (.WMVBAABBAMessage (.CSSSeen (UInt32.ofNat phase) ns))
  | 7 => do
    let phase ← getWord32be
    let ns ← getUntaggedNominationSet .NSBoth
    pure (.WMVBAABBAMessage (.CSSSeen (UInt32.ofNat phase) ns))
  | 8 => do
    let phase ← getWord32be
    let choices ← getUntaggedNominationSet .NSTop
    pure (.WMVBAABBAMessage (.CSSDoneReporting (UInt32.ofNat phase) choices))
  | 9 => do
    let phase ← getWord32be
    let choices ← getUntaggedNominationSet .NSBot
    pure (.WMVBAABBAMessage (.CSSDoneReporting (UInt32.ofNat phase) choices))
  | 10 => do
    let phase ← getWord32be
    let choices ← getUntaggedNominationSet .NSBoth
    pure (.WMVBAABBAMessage (.CSSDoneReporting (UInt32.ofNat phase) choices))
  | 11 => pure (.WMVBAABBAMessage (.WeAreDone false))
  | 12 => pure (.WMVBAABBAMessage (.WeAreDone true))
  | 13 => .WMVBAWitnessCreatorMessage <$> (valFormat.prod sigFormat).get
  | _ => Get.fail

/-- A message is its body followed by its ticket, which only a `Justified` message has. -/
theorem putWMVBAMessage_eq_body (message : WMVBAMessage val sig ticket) :
    putWMVBAMessage valFormat sigFormat ticketFormat message =
      (putWMVBAMessageBody valFormat sigFormat message).map
        (· ++ putOption ticketFormat.put (justifiedTicket message)) := by
  cases message with
  | WMVBAABBAMessage message =>
      cases message with
      | Justified phase choice ticketProof => rfl
      | CSSSeen | CSSDoneReporting | WeAreDone =>
          simp [putWMVBAMessage, justifiedTicket, putOption]
  | WMVBAFreezeMessage | WMVBAWitnessCreatorMessage =>
      simp [putWMVBAMessage, justifiedTicket, putOption]

/-- A nomination set a message can carry: not empty, its parties within its bound, and the bound
eight below the top of a `Word32`. -/
def Carriable (ns : NominationSet) : Prop :=
  nomTag ns ≠ .NSEmpty ∧ PartiesWithin ns ∧ ns.nomMax + 8 < 2 ^ 32

/-- What a message needs to be read back: carriable nomination sets, and values, signatures and
tickets that their formats write. -/
def Encodable : WMVBAMessage val sig ticket → Prop
  | .WMVBAFreezeMessage (.Proposal value) => valFormat.Admissible value
  | .WMVBAFreezeMessage (.Vote value) => ∀ inner, value = some inner → valFormat.Admissible inner
  | .WMVBAABBAMessage (.Justified _ _ ticketProof) => ticketFormat.Admissible ticketProof
  | .WMVBAABBAMessage (.CSSSeen _ ns) => Carriable ns
  | .WMVBAABBAMessage (.CSSDoneReporting _ choices) => Carriable choices
  | .WMVBAABBAMessage (.WeAreDone _) => True
  | .WMVBAWitnessCreatorMessage (value, blssig) =>
    valFormat.Admissible value ∧ sigFormat.Admissible blssig

/-- A `Seen` or `DoneReporting` message past its tag: the phase and then the nomination set,
read with the set's own tag. -/
theorem getNominationMessage {β : Type} (wrap : UInt32 → NominationSet → β) (phase : UInt32)
    {ns : NominationSet} (carriable : Carriable ns) (rest : List UInt8) :
    (do
        let phase ← getWord32be
        let ns' ← getUntaggedNominationSet (nomTag ns)
        pure (wrap (UInt32.ofNat phase) ns'))
      (putWord32be phase.toNat ++ putUntaggedNominationSet ns ++ rest) =
      some (wrap phase ns, rest) := by
  obtain ⟨-, within, fits⟩ := carriable
  rw [List.append_assoc, bind_run_of_some (getWord32be_putWord32be (UInt32.toNat_lt phase) _),
    bind_run_of_some (getUntaggedNominationSet_putUntaggedNominationSet ns within (by omega) rest),
    UInt32.ofNat_toNat]
  rfl

/-- A `Justified` message past its tag: the phase and then the ticket. -/
theorem getJustifiedMessage {β : Type} (wrap : UInt32 → ticket → β) (phase : UInt32)
    {ticketProof : ticket} (admissible : ticketFormat.Admissible ticketProof)
    (rest : List UInt8) :
    (do
        let phase ← getWord32be
        let ticketProof ← ticketFormat.get
        pure (wrap (UInt32.ofNat phase) ticketProof))
      (putWord32be phase.toNat ++ ticketFormat.put ticketProof ++ rest) =
      some (wrap phase ticketProof, rest) := by
  rw [List.append_assoc, bind_run_of_some (getWord32be_putWord32be (UInt32.toNat_lt phase) _),
    ticketFormat.bind_get_put admissible, UInt32.ofNat_toNat]
  rfl

/-- The round trip of an encodable message: it is written, and read back from what was written
with the rest of the input left. -/
theorem getWMVBAMessage_putWMVBAMessage (message : WMVBAMessage val sig ticket)
    (encodable : Encodable valFormat sigFormat ticketFormat message) :
    ∃ bytes, putWMVBAMessage valFormat sigFormat ticketFormat message = some bytes ∧
      ∀ rest, getWMVBAMessage valFormat sigFormat ticketFormat (bytes ++ rest) =
        some (message, rest) := by
  cases message with
  | WMVBAFreezeMessage message =>
      cases message with
      | Proposal value =>
          refine ⟨_, rfl, fun rest => ?_⟩
          rw [List.append_assoc]
          exact map_run_of_some (valFormat.get_put value rest encodable)
      | Vote value =>
          cases value with
          | none => exact ⟨_, rfl, fun rest => rfl⟩
          | some value =>
              refine ⟨_, rfl, fun rest => ?_⟩
              rw [List.append_assoc]
              exact map_run_of_some (valFormat.get_put value rest (encodable value rfl))
  | WMVBAABBAMessage message =>
      cases message with
      | Justified phase choice ticketProof =>
          have read := getJustifiedMessage ticketFormat
            (fun phase ticketProof =>
              (.WMVBAABBAMessage (.Justified phase choice ticketProof) : WMVBAMessage val sig ticket))
            phase encodable
          cases choice with
          | false | true =>
              refine ⟨_, rfl, fun rest => ?_⟩
              simp only [List.append_assoc] at read ⊢
              exact read rest
      | CSSSeen phase ns =>
          have read := getNominationMessage
            (fun phase ns => (.WMVBAABBAMessage (.CSSSeen phase ns) : WMVBAMessage val sig ticket))
            phase encodable
          -- the tag byte is the one the nomination set's tag picks
          show ∃ bytes, Option.map _ (nominationTag 5 (nomTag ns)) = some bytes ∧ _
          cases tagged : nomTag ns with
          | NSEmpty => exact absurd tagged encodable.1
          | NSTop | NSBot | NSBoth =>
              rw [tagged] at read
              refine ⟨_, rfl, fun rest => ?_⟩
              simp only [List.append_assoc] at read ⊢
              exact read rest
      | CSSDoneReporting phase choices =>
          have read := getNominationMessage
            (fun phase choices =>
              (.WMVBAABBAMessage (.CSSDoneReporting phase choices) : WMVBAMessage val sig ticket))
            phase encodable
          show ∃ bytes, Option.map _ (nominationTag 8 (nomTag choices)) = some bytes ∧ _
          cases tagged : nomTag choices with
          | NSEmpty => exact absurd tagged encodable.1
          | NSTop | NSBot | NSBoth =>
              rw [tagged] at read
              refine ⟨_, rfl, fun rest => ?_⟩
              simp only [List.append_assoc] at read ⊢
              exact read rest
      | WeAreDone choice =>
          cases choice with
          | false => exact ⟨_, rfl, fun rest => rfl⟩
          | true => exact ⟨_, rfl, fun rest => rfl⟩
  | WMVBAWitnessCreatorMessage witness =>
      obtain ⟨value, blssig⟩ := witness
      refine ⟨_, rfl, fun rest => ?_⟩
      rw [List.append_assoc (putWord8 13), List.append_assoc (putWord8 13)]
      exact map_run_of_some ((valFormat.prod sigFormat).get_put (value, blssig) rest encodable)

/-- The encodings of the protocol's messages and of nomination sets are read back: an encodable
message from its bytes, which are its signed body and then the ticket of a `Justified` message; a
nomination set within its bound, the empty one as `emptyNominationSet`. -/
theorem wmvba_encoding_round_trips :
    (∀ message : WMVBAMessage val sig ticket, Encodable valFormat sigFormat ticketFormat message →
      ∃ bytes, putWMVBAMessage valFormat sigFormat ticketFormat message = some bytes ∧
        ∀ rest, getWMVBAMessage valFormat sigFormat ticketFormat (bytes ++ rest) =
          some (message, rest)) ∧
    (∀ message : WMVBAMessage val sig ticket,
      putWMVBAMessage valFormat sigFormat ticketFormat message =
        (putWMVBAMessageBody valFormat sigFormat message).map
          (· ++ putOption ticketFormat.put (justifiedTicket message))) ∧
    ∀ ns : NominationSet, PartiesWithin ns → ns.nomMax + 8 < 2 ^ 32 → ∀ rest,
      getNominationSet (putNominationSet ns ++ rest) =
        some (if nomTag ns = .NSEmpty then emptyNominationSet else ns, rest) := by
  refine ⟨getWMVBAMessage_putWMVBAMessage valFormat sigFormat ticketFormat,
    putWMVBAMessage_eq_body valFormat sigFormat ticketFormat, ?_⟩
  intro ns within fits rest
  exact getNominationSet_putNominationSet ns within (by omega) rest

end Encoding

/-- Phase `3`'s nominations seen: parties `0` and `2` for top, party `1` for bottom. -/
def seenNominations : WMVBAMessage Nat Nat Nat :=
  .WMVBAABBAMessage (.CSSSeen 3 ⟨2, 5, 2⟩)

/-- With every value, signature and ticket a `Word64`, the seen nominations are written and read
back. -/
theorem wmvba_encoding_round_trips_on_seen_nominations :
    Encodable (wordBE 8) (wordBE 8) (wordBE 8) seenNominations ∧
      ∃ bytes, putWMVBAMessage (wordBE 8) (wordBE 8) (wordBE 8) seenNominations = some bytes ∧
        getWMVBAMessage (wordBE 8) (wordBE 8) (wordBE 8) (bytes ++ []) =
          some (seenNominations, []) := by
  have encodable : Encodable (wordBE 8) (wordBE 8) (wordBE 8) seenNominations :=
    show Carriable ⟨2, 5, 2⟩ from ⟨by decide, by decide +kernel, by decide⟩
  obtain ⟨bytes, written, read⟩ :=
    (wmvba_encoding_round_trips (wordBE 8) (wordBE 8) (wordBE 8)).1 seenNominations encodable
  exact ⟨encodable, bytes, written, read []⟩

end Concordium.Afgjort.WMVBA
