import Helix.Consensus.Messages
import Helix.Domain.Binding

/-!
# What is signed and hashed is unambiguous

Five kinds of values are turned into canonical bytes, to be signed or to be hashed: the signed fields
of a message, the observation of a record, the whole record, a membership change and a block header.
A commit seal is over the bytes of a block hash itself. From the bytes one can tell the kind and every
field, so a signature or a hash for one of them is not one for another.
-/

namespace Helix

/-- A value with canonical bytes. -/
inductive Canonical where
  | message (m : ConsensusMessage)
  | observation (r : IntegrityRecord)
  | record (r : IntegrityRecord)
  | change (c : ValidatorChange)
  | header (h : BlockHeader)

namespace Canonical

/-- The bytes that are signed or hashed. -/
def bytes : Canonical → Except PyError Bytes
  | message m => m.signingPayload
  | observation r => r.signingBytes
  | record r => r.canonical
  | change c => c.canonical
  | header h => canonicalBytes h.toDict

/-- The object that the bytes are the text of. -/
def toDict : Canonical → List (PyStr × Json)
  | message m => ConsensusMessage.payload m.type m.height m.round m.blockHash m.preparedRound
  | observation r => r.core
  | record r => r.toDict
  | change c => c.toDict
  | header h => h.toDict

/-- The same kind, and the same fields as far as the kind covers them. -/
def Same : Canonical → Canonical → Prop
  | message m, message m' => m.type = m'.type ∧ m.height = m'.height ∧ m.round = m'.round ∧
      m.blockHash = m'.blockHash ∧ (m.type = .ROUND_CHANGE → m.preparedRound = m'.preparedRound)
  | observation r, observation r' => r.entityId = r'.entityId ∧ r.attributeName = r'.attributeName ∧
      r.valueHash = r'.valueHash ∧ r.sourceBroker = r'.sourceBroker ∧ r.verdict = r'.verdict ∧
      r.observedAt = r'.observedAt
  | record r, record r' => r = r'
  | change c, change c' => c = c'
  | header h, header h' => h = h'
  | _, _ => False

lemma bytes_eq (x : Canonical) : x.bytes = canonicalBytes x.toDict := by
  cases x <;> rfl

/-! ### The kind -/

/-- The kind of a value. -/
inductive Kind where
  | message
  | observation
  | record
  | change
  | header
  deriving DecidableEq

def kind : Canonical → Kind
  | message _ => .message
  | observation _ => .observation
  | record _ => .record
  | change _ => .change
  | header _ => .header

/-- The keys of the object, in increasing order. -/
def keys (x : Canonical) : List PyStr :=
  (x.toDict.insertionSort fun p q => p.1 ≤ q.1).map Prod.fst

/-- The keys of each kind; a ROUND_CHANGE has one more than the other messages. -/
def Kind.keys : Kind → Bool → List PyStr
  | message, false => [str "block_hash", str "height", str "round", str "type"]
  | message, true => [str "block_hash", str "height", str "prepared_round", str "round", str "type"]
  | observation, _ => [str "attribute", str "entity_id", str "observed_at", str "source_broker",
      str "value_hash", str "verdict"]
  | record, _ => [str "attribute", str "entity_id", str "observed_at", str "observer",
      str "signature", str "source_broker", str "value_hash", str "verdict"]
  | change, _ => [str "action", str "validator"]
  | header, _ => [str "index", str "merkle_root", str "previous_hash", str "proposer",
      str "timestamp"]

lemma exists_keys_eq (x : Canonical) : ∃ extra, x.keys = x.kind.keys extra := by
  cases x with
  | message m =>
    refine ⟨decide (m.type = .ROUND_CHANGE), ?_⟩
    simp only [keys, toDict, ConsensusMessage.payload_sorted]
    cases m.type <;> rfl
  | observation r => exact ⟨false, rfl⟩
  | record r => exact ⟨false, rfl⟩
  | change c => exact ⟨false, rfl⟩
  | header h => exact ⟨false, rfl⟩

lemma Kind.eq_of_keys : ∀ (k k' : Kind) (extra extra' : Bool),
    k.keys extra = k'.keys extra' → k = k' := by
  intro k k' extra extra'
  cases k <;> cases k' <;> cases extra <;> cases extra' <;> decide

lemma kind_eq_of_bytes {x y : Canonical} {b : Bytes} (hx : x.bytes = .ok b) (hy : y.bytes = .ok b) :
    x.kind = y.kind := by
  rw [bytes_eq] at hx hy
  obtain ⟨extra, hextra⟩ := exists_keys_eq x
  obtain ⟨extra', hextra'⟩ := exists_keys_eq y
  refine Kind.eq_of_keys _ _ extra extra' ?_
  rw [← hextra, ← hextra', keys, keys, sorted_eq_of_canonicalBytes hx hy]

/-! ### The fields -/

/-- Equal observations, by their signed bytes. -/
lemma observation_eq_of_signingBytes {r r' : IntegrityRecord} {b : Bytes}
    (h : r.signingBytes = .ok b) (h' : r'.signingBytes = .ok b) :
    Same (.observation r) (.observation r') := by
  have hsort := sorted_eq_of_canonicalBytes h h'
  have hsorted : ∀ r : IntegrityRecord, r.core.insertionSort (fun p q => p.1 ≤ q.1) =
      [(str "attribute", Json.str r.attributeName), (str "entity_id", .str r.entityId),
        (str "observed_at", .int r.observedAt), (str "source_broker", .str r.sourceBroker),
        (str "value_hash", .str r.valueHash), (str "verdict", .str r.verdict.value)] :=
    fun _ => rfl
  simp only [hsorted, List.cons.injEq, Prod.mk.injEq, Json.str.injEq, Json.int.injEq, true_and,
    and_true] at hsort
  obtain ⟨hattribute, hentity, hobserved, hbroker, hvalue, hverdict⟩ := hsort
  exact ⟨hentity, hattribute, hvalue, hbroker, Verdict.value_injective hverdict, hobserved⟩

/-- A text of hexadecimal digits is not the text of an object. -/
lemma encode_hex_ne_bytes {x : Canonical} {b : Bytes} (hx : x.bytes = .ok b) {text : PyStr}
    (hne : text ≠ []) (hhex : ∀ c ∈ text, (CodePoint.hexVal c).isSome) : encode text ≠ .ok b := by
  intro htext
  rw [bytes_eq] at hx
  have heq : text = Json.dumpsDict x.toDict := encode_injective htext hx
  obtain ⟨c, rest, rfl⟩ := List.exists_cons_of_ne_nil hne
  have hbrace : c = Fin.ofNat _ 123 := (List.cons.inj heq).1
  have hdigit := hhex c List.mem_cons_self
  rw [hbrace] at hdigit
  revert hdigit
  decide

end Canonical

/-- Equal bytes come from values of one kind with the same fields, and they are not those of the 64
hexadecimal digits of a block hash. -/
theorem canonical_bytes_unambiguous {x y : Canonical} {b : Bytes} (hx : x.bytes = .ok b)
    (hy : y.bytes = .ok b) : x.Same y ∧
      ∀ text : PyStr, text.length = 64 → (∀ c ∈ text, (CodePoint.hexVal c).isSome) →
        encode text ≠ .ok b := by
  refine ⟨?_, fun text hlength hhex => ?_⟩
  · have hkind := Canonical.kind_eq_of_bytes hx hy
    cases x with
    | message m =>
      cases y with
      | message m' => exact ConsensusMessage.signingPayload_injective hx hy
      | _ => cases hkind
    | observation r =>
      cases y with
      | observation r' => exact Canonical.observation_eq_of_signingBytes hx hy
      | _ => cases hkind
    | record r =>
      cases y with
      | record r' => exact IntegrityRecord.eq_of_canonical hx hy
      | _ => cases hkind
    | change c =>
      cases y with
      | change c' => exact ValidatorChange.eq_of_canonical hx hy
      | _ => cases hkind
    | header h =>
      cases y with
      | header h' => exact BlockHeader.eq_of_canonicalBytes hx hy
      | _ => cases hkind
  · refine Canonical.encode_hex_ne_bytes hx (fun hnil => ?_) hhex
    rw [hnil] at hlength
    cases hlength

/-- Two ROUND_CHANGEs of different senders with the same signed fields. -/
theorem canonical_bytes_unambiguous_of_round_changes :
    let m : ConsensusMessage :=
      { type := .ROUND_CHANGE, height := 1, round := 2, blockHash := [], sender := str "aa"
        signature := [], preparedRound := some 1 }
    let m' := { m with sender := str "bb" }
    ∃ b, m.signingPayload = .ok b ∧ m'.signingPayload = .ok b ∧
      Canonical.Same (.message m) (.message m') ∧ encode (toHex (List.replicate 32 0xab)) ≠ .ok b := by
  intro m m'
  obtain ⟨b, hb⟩ : ∃ b, m.signingPayload = .ok b := exists_of_isOk (by decide +kernel)
  obtain ⟨hsame, hseal⟩ := canonical_bytes_unambiguous (x := .message m) (y := .message m') hb hb
  exact ⟨b, hb, hb, hsame, hseal _ (by decide) fun c => isSome_hexVal_of_mem_toHex⟩

end Helix
