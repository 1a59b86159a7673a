import Helix.Consensus.Messages
import Helix.Domain.Encoding
import Helix.Library.JsonText

/-!
# Wire and storage formats

Messages travel between nodes, blocks are stored and locks are journaled as JSON texts of `to_dict`;
`from_dict` of what such a text decodes to is the value that was written. The one exception are
strings in which the two halves of a surrogate pair stand next to each other: the default style of
`json.dumps` writes them as the escape of one character.
-/

namespace Helix

open JsonValue (toInt keptInt toStr ofDict elements optional typeError undeclared Plain)

/-- The member of an enumeration with a given value. -/
def ofValue {α : Type} (members : List α) (value : α → PyStr) (name : String) :
    JsonValue → Except PyError α
  | .str s => (members.find? fun a => value a = s).elim (.error (.valueError name)) .ok
  | _ => .error (.valueError name)

/-! ### Blocks -/

def BlockHeader.fromDict (data : JsonValue) : Except PyError BlockHeader := do
  let index ← data.getItem "index" >>= toInt
  let previousHash ← data.getItem "previous_hash" >>= toStr
  let timestamp ← data.getItem "timestamp" >>= toInt
  let merkleRoot ← data.getItem "merkle_root" >>= toStr
  let proposer ← data.getItem "proposer" >>= toStr
  return { index, previousHash, timestamp, merkleRoot, proposer }

def Verdict.fromValue : JsonValue → Except PyError Verdict :=
  ofValue [.OK, .TAMPERED, .UNVERIFIED] Verdict.value "is not a valid Verdict"

def IntegrityRecord.fromDict (data : JsonValue) : Except PyError IntegrityRecord := do
  let entityId ← data.getItem "entity_id" >>= toStr
  let attributeName ← data.getItem "attribute" >>= toStr
  let valueHash ← data.getItem "value_hash" >>= toStr
  let sourceBroker ← data.getItem "source_broker" >>= toStr
  let verdict ← data.getItem "verdict" >>= Verdict.fromValue
  let observedAt ← data.getItem "observed_at" >>= toInt
  let observer ← data.get "observer" (.str []) >>= toStr
  let signature ← data.get "signature" (.str []) >>= toStr
  return { entityId, attributeName, valueHash, sourceBroker, verdict, observedAt, observer, signature }

def ChangeAction.fromValue : JsonValue → Except PyError ChangeAction :=
  ofValue [.ADD, .REMOVE] ChangeAction.value "is not a valid ChangeAction"

def ValidatorChange.fromDict (data : JsonValue) : Except PyError ValidatorChange := do
  let action ← data.getItem "action" >>= ChangeAction.fromValue
  let validator ← data.getItem "validator" >>= toStr
  return { action, validator }

namespace Block

def toDict (b : Block) : JsonValue :=
  .dict [(str "header", ofDict b.header.toDict),
    (str "records", .list (b.records.map fun r => ofDict r.toDict)),
    (str "commit_signatures", .dict (b.commitSignatures.items.map fun p => (p.1, .str p.2))),
    (str "validator_changes", .list (b.validatorChanges.map fun c => ofDict c.toDict))]

/-- `dict(data)`. Lists and texts are outside what is modelled, since some of them are sequences of
pairs. -/
def signatures : JsonValue → Except PyError (Dict PyStr PyStr)
  | .dict items => (items.mapM fun p => (toStr p.2).map fun s => (p.1, s)).map Dict.ofList
  | .list _ | .str _ => .error undeclared
  | _ => .error typeError

def fromDict (data : JsonValue) : Except PyError Block := do
  let header ← data.getItem "header" >>= BlockHeader.fromDict
  let records ← data.getItem "records" >>= elements
  let records ← records.mapM IntegrityRecord.fromDict
  let commitSignatures ← data.get "commit_signatures" (.dict []) >>= signatures
  let changes ← data.get "validator_changes" (.list []) >>= elements
  let validatorChanges ← changes.mapM ValidatorChange.fromDict
  return { header, records, commitSignatures, validatorChanges }

end Block

/-! ### Messages -/

namespace ConsensusMessage

mutual

def toDict : ConsensusMessage → JsonValue
  | ⟨type, height, round, blockHash, sender, signature, block, commitSeal, preparedRound, preparedCert,
      roundChangeCert⟩ =>
    .dict [(Helix.str "type", .str type.value), (Helix.str "height", .int height),
      (Helix.str "round", .int round), (Helix.str "block_hash", .str blockHash),
      (Helix.str "sender", .str sender), (Helix.str "signature", .str signature),
      (Helix.str "block", block.elim .null Block.toDict),
      (Helix.str "commit_seal", commitSeal.elim .null .str),
      (Helix.str "prepared_round", preparedRound.elim .null .int),
      (Helix.str "prepared_cert", .list (toDicts preparedCert)),
      (Helix.str "round_change_cert", .list (toDicts roundChangeCert))]

def toDicts : List ConsensusMessage → List JsonValue
  | [] => []
  | m :: l => m.toDict :: toDicts l

end

end ConsensusMessage

def MessageType.fromValue : JsonValue → Except PyError MessageType :=
  ofValue [.PRE_PREPARE, .PREPARE, .COMMIT, .ROUND_CHANGE] MessageType.value
    "is not a valid MessageType"

def ConsensusMessage.fromDict (data : JsonValue) : Except PyError ConsensusMessage := do
  let rawBlock ← data.get "block" .null
  let type ← data.getItem "type" >>= MessageType.fromValue
  let height ← data.getItem "height" >>= toInt
  let round ← data.getItem "round" >>= toInt
  let blockHash ← data.getItem "block_hash" >>= toStr
  let sender ← data.getItem "sender" >>= toStr
  let signature ← data.getItem "signature" >>= toStr
  let block ← optional Block.fromDict rawBlock
  let commitSeal ← data.get "commit_seal" .null >>= optional toStr
  let preparedRound ← data.get "prepared_round" .null >>= optional keptInt
  let prepares ← data.children "prepared_cert"
  let preparedCert ← prepares.mapM fun m => fromDict m.1
  let changes ← data.children "round_change_cert"
  let roundChangeCert ← changes.mapM fun m => fromDict m.1
  return { type, height, round, blockHash, sender, signature, block, commitSeal, preparedRound,
           preparedCert, roundChangeCert }
termination_by sizeOf data
decreasing_by all_goals exact m.2

/-! ### Reading a dictionary back -/

lemma MessageType.fromValue_value (t : MessageType) : MessageType.fromValue (.str t.value) = .ok t := by
  cases t <;> rfl

lemma BlockHeader.fromDict_toDict (h : BlockHeader) : BlockHeader.fromDict (ofDict h.toDict) = .ok h :=
  rfl

lemma ValidatorChange.fromDict_toDict (c : ValidatorChange) :
    ValidatorChange.fromDict (ofDict c.toDict) = .ok c := by
  obtain ⟨action, validator⟩ := c
  cases action <;> rfl

lemma IntegrityRecord.fromDict_toDict (r : IntegrityRecord) :
    IntegrityRecord.fromDict (ofDict r.toDict) = .ok r := by
  obtain ⟨entityId, attributeName, valueHash, sourceBroker, verdict, observedAt, observer, signature⟩ := r
  cases verdict <;> rfl

/-- A block is read back from its dictionary. -/
lemma Block.fromDict_toDict (b : Block) : Block.fromDict b.toDict = .ok b := by
  obtain ⟨header, records, commitSignatures, changes⟩ := b
  have hrecords : (records.map fun r => ofDict r.toDict).mapM IntegrityRecord.fromDict = .ok records :=
    mapM_map_of_inverse fun r _ => r.fromDict_toDict
  have hchanges : (changes.map fun c => ofDict c.toDict).mapM ValidatorChange.fromDict = .ok changes :=
    mapM_map_of_inverse fun c _ => c.fromDict_toDict
  have hsignatures : signatures (.dict (commitSignatures.items.map fun p => (p.1, .str p.2))) =
      .ok commitSignatures := by
    have hitems : (commitSignatures.items.map fun p => (p.1, JsonValue.str p.2)).mapM
        (fun p => (toStr p.2).map fun s => (p.1, s)) = .ok commitSignatures.items :=
      mapM_map_of_inverse fun p _ => rfl
    rw [signatures, hitems, Except.map, Dict.ofList_items]
  generalize hdata : toDict ⟨header, records, commitSignatures, changes⟩ = data
  have hheader : data.getItem "header" >>= BlockHeader.fromDict = .ok header := by
    rw [← hdata]
    exact header.fromDict_toDict
  have hrecordsItem : data.getItem "records" >>= elements =
      .ok (records.map fun r => ofDict r.toDict) := by
    rw [← hdata]
    rfl
  have hsignaturesItem : data.get "commit_signatures" (.dict []) >>= signatures =
      .ok commitSignatures := by
    rw [← hdata]
    exact hsignatures
  have hchangesItem : data.get "validator_changes" (.list []) >>= elements =
      .ok (changes.map fun c => ofDict c.toDict) := by
    rw [← hdata]
    rfl
  rw [fromDict, hheader, hrecordsItem, hsignaturesItem, hchangesItem]
  simp only [bind, Except.bind, hrecords, hchanges]
  rfl

namespace ConsensusMessage

/-- The part of a message outside its certificates is read back. -/
lemma fromDict_eq {m : ConsensusMessage}
    (hprepared : (toDicts m.preparedCert).mapM fromDict = .ok m.preparedCert)
    (hchanges : (toDicts m.roundChangeCert).mapM fromDict = .ok m.roundChangeCert) :
    fromDict m.toDict = .ok m := by
  obtain ⟨type, height, round, blockHash, sender, signature, block, commitSeal, preparedRound,
    preparedCert, roundChangeCert⟩ := m
  generalize hdata : toDict ⟨type, height, round, blockHash, sender, signature, block, commitSeal,
    preparedRound, preparedCert, roundChangeCert⟩ = data
  rw [toDict] at hdata
  have hblock : data.get "block" .null = .ok (block.elim .null Block.toDict) := by
    rw [← hdata]
    rfl
  have htype : data.getItem "type" >>= MessageType.fromValue = .ok type := by
    rw [← hdata]
    exact type.fromValue_value
  have hheight : data.getItem "height" >>= toInt = .ok height := by rw [← hdata]; rfl
  have hround : data.getItem "round" >>= toInt = .ok round := by rw [← hdata]; rfl
  have hhash : data.getItem "block_hash" >>= toStr = .ok blockHash := by rw [← hdata]; rfl
  have hsender : data.getItem "sender" >>= toStr = .ok sender := by rw [← hdata]; rfl
  have hsignature : data.getItem "signature" >>= toStr = .ok signature := by rw [← hdata]; rfl
  have hoptional : optional Block.fromDict (block.elim .null Block.toDict) = .ok block := by
    cases block with
    | none => rfl
    | some b => exact congrArg (Except.map some) b.fromDict_toDict
  have hseal : data.get "commit_seal" .null >>= optional toStr = .ok commitSeal := by
    rw [← hdata]
    cases commitSeal <;> rfl
  have hpreparedRound : data.get "prepared_round" .null >>= optional keptInt = .ok preparedRound := by
    rw [← hdata]
    cases preparedRound <;> rfl
  obtain ⟨prepares, hprepares, hprepares'⟩ := JsonValue.children_eq
    (show data.get "prepared_cert" (.list []) >>= elements = .ok (toDicts preparedCert) by
      rw [← hdata]; rfl)
  obtain ⟨changes, hcert, hcert'⟩ := JsonValue.children_eq
    (show data.get "round_change_cert" (.list []) >>= elements = .ok (toDicts roundChangeCert) by
      rw [← hdata]; rfl)
  rw [← hprepares', List.mapM_map] at hprepared
  rw [← hcert', List.mapM_map] at hchanges
  rw [fromDict, hblock, htype, hheight, hround, hhash, hsender, hsignature, hseal, hpreparedRound,
    hprepares, hcert]
  have hprepared' : prepares.mapM (fun m => fromDict m.1) = .ok preparedCert := hprepared
  have hchanges' : changes.mapM (fun m => fromDict m.1) = .ok roundChangeCert := hchanges
  simp only [bind, Except.bind, hoptional, hprepared', hchanges']
  rfl

mutual

/-- A message is read back from its dictionary, certificates included. -/
lemma fromDict_toDict (m : ConsensusMessage) : fromDict m.toDict = .ok m := by
  match m with
  | ⟨type, height, round, blockHash, sender, signature, block, commitSeal, preparedRound, preparedCert,
      roundChangeCert⟩ =>
    exact fromDict_eq (mapM_fromDict_toDicts preparedCert) (mapM_fromDict_toDicts roundChangeCert)

lemma mapM_fromDict_toDicts (l : List ConsensusMessage) : (toDicts l).mapM fromDict = .ok l := by
  match l with
  | [] => rfl
  | m :: l =>
    rw [toDicts, List.mapM_cons, fromDict_toDict m, mapM_fromDict_toDicts l]
    rfl

end

end ConsensusMessage

/-! ### The texts of a value -/

namespace ConsensusMessage

mutual

/-- The strings of a message, those of its block and of its certificates included. -/
def texts : ConsensusMessage → List PyStr
  | ⟨_, _, _, blockHash, sender, signature, block, commitSeal, _, preparedCert, roundChangeCert⟩ =>
    [blockHash, sender, signature] ++ block.elim [] Block.texts ++ commitSeal.toList ++
      textsOf preparedCert ++ textsOf roundChangeCert

def textsOf : List ConsensusMessage → List PyStr
  | [] => []
  | m :: l => m.texts ++ textsOf l

end

end ConsensusMessage

variable {σ : JsonStyle}

lemma BlockHeader.plain_toDict {h : BlockHeader} (hh : ∀ s ∈ h.texts, σ.Keeps s) :
    Plain σ (ofDict h.toDict) := by
  refine JsonValue.plain_ofDict ?_ ?_ fun key s hs => ?_
  · exact show [str "index", str "previous_hash", str "timestamp", str "merkle_root",
      str "proposer"].Nodup by decide
  · simp only [toDict, List.forall_mem_cons, σ.keeps_str, true_and, List.not_mem_nil, false_implies,
      implies_true]
  · simp only [toDict, List.mem_cons, Prod.mk.injEq, Json.str.injEq, reduceCtorEq, and_false,
      List.not_mem_nil, or_false, false_or] at hs
    rcases hs with ⟨-, rfl⟩ | ⟨-, rfl⟩ | ⟨-, rfl⟩ <;> exact hh _ (by simp [texts])

lemma IntegrityRecord.plain_toDict {r : IntegrityRecord} (hr : ∀ s ∈ r.texts, σ.Keeps s) :
    Plain σ (ofDict r.toDict) := by
  refine JsonValue.plain_ofDict ?_ ?_ fun key s hs => ?_
  · exact show [str "entity_id", str "attribute", str "value_hash", str "source_broker", str "verdict",
      str "observed_at", str "observer", str "signature"].Nodup by decide
  · simp only [toDict, core, List.cons_append, List.nil_append, List.forall_mem_cons, σ.keeps_str,
      true_and, List.not_mem_nil, false_implies, implies_true]
  · simp only [toDict, core, List.cons_append, List.nil_append, List.mem_cons, Prod.mk.injEq,
      Json.str.injEq, reduceCtorEq, and_false, List.not_mem_nil, or_false, false_or] at hs
    rcases hs with ⟨-, rfl⟩ | ⟨-, rfl⟩ | ⟨-, rfl⟩ | ⟨-, rfl⟩ | ⟨-, rfl⟩ | ⟨-, rfl⟩ | ⟨-, rfl⟩
    case inr.inr.inr.inr.inl =>
      cases r.verdict <;> exact σ.keeps_str _
    all_goals exact hr _ (by simp [texts])

lemma ValidatorChange.plain_toDict {c : ValidatorChange} (hc : σ.Keeps c.validator) :
    Plain σ (ofDict c.toDict) := by
  refine JsonValue.plain_ofDict ?_ ?_ fun key s hs => ?_
  · exact show [str "action", str "validator"].Nodup by decide
  · simp only [toDict, List.forall_mem_cons, σ.keeps_str, true_and, List.not_mem_nil, false_implies,
      implies_true]
  · simp only [toDict, List.mem_cons, Prod.mk.injEq, Json.str.injEq, List.not_mem_nil, or_false] at hs
    rcases hs with ⟨-, rfl⟩ | ⟨-, rfl⟩
    · cases c.action <;> exact σ.keeps_str _
    · exact hc

lemma Block.plain_toDict {b : Block} (hb : ∀ s ∈ b.texts, σ.Keeps s) : Plain σ b.toDict := by
  simp only [texts, List.mem_append, List.mem_flatMap, List.mem_map] at hb
  have hheader : Plain σ (ofDict b.header.toDict) :=
    BlockHeader.plain_toDict fun s hs => hb s (Or.inl (Or.inl (Or.inl hs)))
  have hrecords : ∀ v ∈ b.records.map fun r => ofDict r.toDict, Plain σ v := by
    intro v hv
    obtain ⟨r, hr, rfl⟩ := List.mem_map.mp hv
    exact IntegrityRecord.plain_toDict fun s hs => hb s (Or.inl (Or.inl (Or.inr ⟨r, hr, hs⟩)))
  have hchanges : ∀ v ∈ b.validatorChanges.map fun c => ofDict c.toDict, Plain σ v := by
    intro v hv
    obtain ⟨c, hc, rfl⟩ := List.mem_map.mp hv
    exact ValidatorChange.plain_toDict (hb _ (Or.inr ⟨c, hc, rfl⟩))
  have hsignatures : Plain σ (.dict (b.commitSignatures.items.map fun p => (p.1, .str p.2))) := by
    refine .dict ?_ ?_ ?_
    · rw [List.map_map]
      exact b.commitSignatures.nodup
    all_goals
      intro q hq
      obtain ⟨p, hp, rfl⟩ := List.mem_map.mp hq
    · exact hb _ (Or.inl (Or.inr ⟨p, hp, by simp⟩))
    · exact .str (hb _ (Or.inl (Or.inr ⟨p, hp, by simp⟩)))
  refine .dict ?_ ?_ ?_
  · exact show [str "header", str "records", str "commit_signatures", str "validator_changes"].Nodup by
      decide
  · simp only [List.forall_mem_cons, σ.keeps_str, true_and, List.not_mem_nil, false_implies, implies_true]
  · simp only [List.forall_mem_cons, List.not_mem_nil, false_implies, implies_true, and_true]
    exact ⟨hheader, .list hrecords, hsignatures, .list hchanges⟩

namespace ConsensusMessage

mutual

lemma plain_toDict (m : ConsensusMessage) (hm : ∀ s ∈ m.texts, σ.Keeps s) : Plain σ m.toDict := by
  match m with
  | ⟨type, height, round, blockHash, sender, signature, block, commitSeal, preparedRound, preparedCert,
      roundChangeCert⟩ =>
    simp only [texts, List.mem_append, or_imp, forall_and] at hm
    obtain ⟨⟨⟨⟨hown, hblock⟩, hseal⟩, hprepared⟩, hchanges⟩ := hm
    have hprepared := plain_toDicts preparedCert hprepared
    have hchanges := plain_toDicts roundChangeCert hchanges
    rw [toDict]
    refine .dict ?_ ?_ ?_
    · exact show [Helix.str "type", Helix.str "height", Helix.str "round", Helix.str "block_hash",
        Helix.str "sender", Helix.str "signature", Helix.str "block", Helix.str "commit_seal",
        Helix.str "prepared_round", Helix.str "prepared_cert", Helix.str "round_change_cert"].Nodup by
        decide
    · simp only [List.forall_mem_cons, σ.keeps_str, true_and, List.not_mem_nil, false_implies,
        implies_true]
    · simp only [List.forall_mem_cons, List.not_mem_nil, false_implies, implies_true, and_true]
      refine ⟨.str ?_, .int _, .int _, .str (hown _ (by simp)), .str (hown _ (by simp)),
        .str (hown _ (by simp)), ?_, ?_, ?_, .list hprepared, .list hchanges⟩
      · cases type <;> exact σ.keeps_str _
      · cases block with
        | none => exact .null
        | some b => exact Block.plain_toDict hblock
      · cases commitSeal with
        | none => exact .null
        | some s => exact .str (hseal s (by simp))
      · cases preparedRound with
        | none => exact .null
        | some n => exact .int n

lemma plain_toDicts (l : List ConsensusMessage) (hl : ∀ s ∈ textsOf l, σ.Keeps s) :
    ∀ v ∈ toDicts l, Plain σ v := by
  match l with
  | [] =>
    intro v hv
    cases hv
  | m :: l =>
    simp only [textsOf, List.mem_append, or_imp, forall_and] at hl
    intro v hv
    rw [toDicts, List.mem_cons] at hv
    rcases hv with rfl | hv
    · exact plain_toDict m hl.1
    · exact plain_toDicts l hl.2 v hv

end

end ConsensusMessage

/-! ### Texts -/

/-- `json.loads`, raising on what is no JSON text. -/
def decodeJson (text : PyStr) : Except PyError JsonValue :=
  (JsonValue.loads text).elim (.error (.valueError "JSONDecodeError")) .ok

lemma decodeJson_dumps {v : JsonValue} (hv : Plain σ v) : decodeJson (v.dumps σ) = .ok v := by
  rw [decodeJson, JsonValue.loads_dumps hv]
  rfl

namespace SqlBlockRepository

/-- The `body` of the row of a block. -/
def body (block : Block) : PyStr := block.toDict.dumps {}

/-- `_to_block`. -/
def toBlock (body : PyStr) : Except PyError Block := decodeJson body >>= Block.fromDict

end SqlBlockRepository

namespace SqlHeightView

/-- The `payload` of the row that `record_prepared` adds. -/
def payload (block : Block) (cert : List ConsensusMessage) : PyStr :=
  (JsonValue.dict [(str "block", block.toDict),
    (str "cert", .list (cert.map ConsensusMessage.toDict))]).dumps {}

/-- What `_load` takes from the row. -/
def load (payload : PyStr) : Except PyError (Block × List ConsensusMessage) := do
  let data ← decodeJson payload
  let block ← data.getItem "block" >>= Block.fromDict
  let cert ← data.getItem "cert" >>= elements
  let cert ← cert.mapM ConsensusMessage.fromDict
  return (block, cert)

lemma load_payload {block : Block} {cert : List ConsensusMessage}
    (hblock : ∀ s ∈ block.texts, JsonStyle.Keeps {} s)
    (hcert : ∀ m ∈ cert, ∀ s ∈ m.texts, JsonStyle.Keeps {} s) :
    load (payload block cert) = .ok (block, cert) := by
  have hplain : Plain {} (.dict [(str "block", block.toDict),
      (str "cert", .list (cert.map ConsensusMessage.toDict))]) := by
    refine .dict (by simp; decide) ?_ ?_
    · simp only [List.forall_mem_cons, JsonStyle.keeps_str, true_and, List.not_mem_nil, false_implies,
        implies_true]
    · simp only [List.forall_mem_cons, List.not_mem_nil, false_implies, implies_true, and_true]
      refine ⟨Block.plain_toDict hblock, .list fun v hv => ?_⟩
      obtain ⟨m, hm, rfl⟩ := List.mem_map.mp hv
      exact m.plain_toDict (hcert m hm)
  have hmessages : (cert.map ConsensusMessage.toDict).mapM ConsensusMessage.fromDict = .ok cert :=
    mapM_map_of_inverse fun m _ => m.fromDict_toDict
  rw [load, payload, decodeJson_dumps hplain]
  have hitem : (JsonValue.dict [(str "block", block.toDict),
      (str "cert", .list (cert.map ConsensusMessage.toDict))]).getItem "block" >>= Block.fromDict =
      .ok block := block.fromDict_toDict
  have hitems : (JsonValue.dict [(str "block", block.toDict),
      (str "cert", .list (cert.map ConsensusMessage.toDict))]).getItem "cert" >>= elements =
      .ok (cert.map ConsensusMessage.toDict) := rfl
  simp only [bind, Except.bind] at hitem hitems ⊢
  simp only [hitem, hitems, hmessages]
  rfl

end SqlHeightView

/-- Blocks and messages are read back from their texts in every style, from the rows of the block
repository and from those of the journal, if no string of theirs holds a surrogate pair that the style
would join. -/
theorem formats_lossless (σ : JsonStyle) :
    (∀ b : Block, (∀ s ∈ b.texts, σ.Keeps s) →
      decodeJson (b.toDict.dumps σ) >>= Block.fromDict = .ok b) ∧
    (∀ m : ConsensusMessage, (∀ s ∈ m.texts, σ.Keeps s) →
      decodeJson (m.toDict.dumps σ) >>= ConsensusMessage.fromDict = .ok m) ∧
    (∀ b : Block, (∀ s ∈ b.texts, JsonStyle.Keeps {} s) →
      SqlBlockRepository.toBlock (SqlBlockRepository.body b) = .ok b) ∧
    ∀ (b : Block) (cert : List ConsensusMessage), (∀ s ∈ b.texts, JsonStyle.Keeps {} s) →
      (∀ m ∈ cert, ∀ s ∈ m.texts, JsonStyle.Keeps {} s) →
      SqlHeightView.load (SqlHeightView.payload b cert) = .ok (b, cert) := by
  have hblock : ∀ (σ : JsonStyle) (b : Block), (∀ s ∈ b.texts, σ.Keeps s) →
      decodeJson (b.toDict.dumps σ) >>= Block.fromDict = .ok b := by
    intro σ b hb
    rw [decodeJson_dumps (Block.plain_toDict hb)]
    exact b.fromDict_toDict
  refine ⟨hblock σ, fun m hm => ?_, hblock {}, fun b cert hb hcert => ?_⟩
  · rw [decodeJson_dumps (m.plain_toDict hm)]
    exact m.fromDict_toDict
  · exact SqlHeightView.load_payload hb hcert

/-- A proposal whose certificate holds a lock, and whose strings hold halves of surrogate pairs. -/
def ConsensusMessage.nested : ConsensusMessage :=
  let block : Block :=
    { header := ⟨1, ZERO_HASH, 5, ZERO_HASH, str "0a"⟩
      records := [{ entityId := str "Room:1", attributeName := [.ofNat 0xDC00, .ofNat 0xD800]
                    valueHash := [], sourceBroker := str "\"orion\"", verdict := .TAMPERED
                    observedAt := -5 }]
      commitSignatures := Dict.ofList [(str "0a", str "ff"), (str "0b", [])]
      validatorChanges := [⟨.REMOVE, str "0b"⟩] }
  let prepare : ConsensusMessage := ⟨.PREPARE, 1, 0, str "00", str "0b", [], none, none, none, [], []⟩
  let change : ConsensusMessage :=
    ⟨.ROUND_CHANGE, 1, 1, str "00", str "0a", [], some block, none, some 0, [prepare, prepare], []⟩
  ⟨.PRE_PREPARE, 1, 1, str "00", [.ofNat 0xD800], [], some block, some [], none, [], [change]⟩

/-- The proposal is read back in the default style. -/
theorem formats_lossless_of_nested :
    (∀ s ∈ ConsensusMessage.nested.texts, JsonStyle.Keeps {} s) ∧
      decodeJson (ConsensusMessage.nested.toDict.dumps {}) >>= ConsensusMessage.fromDict =
        .ok ConsensusMessage.nested := by
  have hkeeps : ∀ s ∈ ConsensusMessage.nested.texts, JsonStyle.Keeps {} s := by decide +kernel
  exact ⟨hkeeps, (formats_lossless {}).2.1 _ hkeeps⟩

/-- A block whose proposer is the two halves of a surrogate pair. -/
def Block.paired : Block where
  header := ⟨1, ZERO_HASH, 0, ZERO_HASH, [.ofNat 0xD800, .ofNat 0xDC00]⟩

/-- The row of such a block is read as another block, which can be hashed while the first cannot. -/
theorem surrogate_pair_joined :
    letI := Crypto.checksums
    (∃ b, SqlBlockRepository.toBlock (SqlBlockRepository.body Block.paired) = .ok b ∧
      b ≠ Block.paired ∧ ∃ h, b.hash = .ok h) ∧
    Block.paired.hash = .error .unicodeEncodeError := by
  let := Crypto.checksums
  have hread : (SqlBlockRepository.toBlock (SqlBlockRepository.body Block.paired)).map Block.header =
      .ok ⟨1, ZERO_HASH, 0, ZERO_HASH, [.ofNat 0x10000]⟩ := by decide +kernel
  have hhash : (BlockHeader.hash ⟨1, ZERO_HASH, 0, ZERO_HASH, [.ofNat 0x10000]⟩).map List.length =
      .ok 64 := by decide +kernel
  obtain ⟨b, hb, hheader⟩ := exists_of_map_eq_ok hread
  obtain ⟨h, hh, -⟩ := exists_of_map_eq_ok hhash
  refine ⟨⟨b, hb, ?_, h, ?_⟩, by decide +kernel⟩
  · rintro rfl
    exact absurd hheader (by decide)
  · rw [Block.hash, hheader, hh]

end Helix
