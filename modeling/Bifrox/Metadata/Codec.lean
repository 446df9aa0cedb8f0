/-
Records of the metadata log are read back as they were written, and only records that
could be written are read.
-/
import Bifrox.Metadata.Record

namespace Bifrox.Metadata

open List TxStateRecord TxStatus
open Decoder hiding take text
open Server (AclBinding TxStatus)

/-! ## Reading a record back -/

theorem reads_string {text : Text} (h : Short text) : Reads readString (putText text) text :=
  reads_text _ _ _ h

theorem length_flatMap_putU32 (ids : List UInt32) :
    (ids.flatMap putU32).length = ids.length * 4 := by
  simp [length_flatMap]

@[simp] theorem length_putIds (ids : List UInt32) : (putIds ids).length = 4 + ids.length * 4 := by
  rw [putIds, length_append, BigEndian.length_put, length_flatMap_putU32]

theorem reads_ids {ids : List UInt32} (h : ids.length ≤ maxItems) (message : String) :
    Reads (readIds message) (putIds ids) ids := by
  have hcount : ids.length < 256 ^ 4 := Nat.lt_of_le_of_lt h (by decide)
  refine (reads_number _ hcount).bind (Reads.checked ?_ (Reads.checked ?_ ?_))
  · intro more
    rw [length_flatMap_putU32, Bool.and_eq_true, decide_eq_true_iff, decide_eq_true_iff]
    exact ⟨h, by omega⟩
  · intro more
    rw [length_flatMap_putU32, decide_eq_true_iff]
    omega
  · exact reads_many fun id _ => reads_u32 _

theorem le_length_flatMap_encode (ranges : List PartitionRange) :
    ranges.length * 22 ≤ (ranges.flatMap PartitionRange.encode).length := by
  induction ranges with
  | nil => simp
  | cons =>
    rw [flatMap_cons, length_append, length_cons, PartitionRange.encode]
    simp only [length_append, length_putText, length_putU32, length_putU64]
    omega

theorem reads_partitionRanges {ranges : List PartitionRange} (hcount : ranges.length ≤ maxItems)
    (htopics : ∀ range ∈ ranges, Short range.topic) :
    Reads readPartitionRanges (putPartitionRanges ranges) ranges := by
  have hlt : ranges.length < 256 ^ 4 := Nat.lt_of_le_of_lt hcount (by decide)
  have hlen := le_length_flatMap_encode ranges
  refine (reads_number () hlt).bind (Reads.checked ?_ ?_)
  · intro more
    rw [Bool.and_eq_true, decide_eq_true_iff, decide_eq_true_iff]
    exact ⟨hcount, by omega⟩
  · exact reads_many fun range hrange => (reads_text _ _ _ (htopics range hrange)).bind
      ((reads_u32 _).bind ((reads_u64 _).bind ((reads_u64 _).last _)))

variable {state : TxStateRecord}

theorem readsAll_txStateRecord (h : state.Fits) :
    ReadsAll readTxStateRecord state.encode state := by
  have hstatus : Reads (lift (ofByte (txStatusByte state.status)) ()) [] state.status := by
    cases state.status <;> exact reads_lift ()
  have hlen : 11 ≤ state.encode.length := by
    simp only [encode, length_cons, length_append, length_putU64, length_putText]
    omega
  refine ReadsAll.checked (decide_eq_true hlen) ?_
  refine (reads_byte _).bindAll ((reads_u64 _).bindAll
    ((reads_text _ _ _ h.transactionId).bindAll ?_))
  have hranges := (reads_partitionRanges h.count h.topics).bindAll (f := fun partitions => do
      check (· = 0) ()
      let status ← lift (ofByte (txStatusByte state.status)) ()
      return ({ state with status, partitions } : TxStateRecord))
    (ReadsAll.checked rfl (hstatus.last _).all)
  rwa [append_nil] at hranges

theorem decodeTxStateRecord_encode (h : state.Fits) :
    decodeTxStateRecord state.encode = some state := by
  rw [decodeTxStateRecord, readsAll_txStateRecord h]

theorem reads_binding {binding : AclBinding} (h : BindingFits binding) :
    Reads readBinding (putBinding binding) binding := by
  refine Reads.checked ?_ ((reads_byte _).bind ((reads_string h.resourceName).bind
    (Reads.checked ?_ ((reads_byte _).bind ((reads_string h.principal).bind
      ((reads_string h.host).bind (Reads.checked ?_ ((reads_byte _).bind
        ((reads_byte _).last _)))))))))
  all_goals
    intro more
    simp only [putBinding, length_cons, length_append, length_nil, decide_eq_true_eq]
    omega

theorem le_length_flatMap_putConfig (configs : List (Text × Text)) :
    configs.length * 4 ≤ (configs.flatMap putConfig).length := by
  induction configs with
  | nil => simp
  | cons =>
    simp only [flatMap_cons, length_append, length_cons, putConfig, length_putText]
    omega

namespace MetadataRecord

theorem reads_roles {roles : Bytes} (h : roles.length < 2 ^ 8) :
    Reads readRoles (UInt8.ofNat roles.length :: roles) roles := by
  have hcount := UInt8.toNat_ofNat_of_lt' h
  refine (reads_byte _).bind ?_
  rw [hcount]
  exact reads_take _

theorem readsAll_roster {replicas : Option (List UInt32)}
    (h : ∀ roster ∈ replicas, roster.length ≤ maxItems) :
    ReadsAll (orAtEnd 4 none readRoster) ((replicas.map putIds).getD []) replicas := by
  cases replicas with
  | none => exact if_pos (by decide)
  | some roster =>
    have hread : Reads readRoster (putIds roster) (some roster) :=
      (reads_ids (h roster rfl) _).last _
    exact (hread.orAtEnd (by rw [length_putIds]; omega)).all

theorem readsAll_record {record : MetadataRecord} (h : record.Fits) :
    ReadsAll (readRecord record.tag) record.body record := by
  cases record with
  | transactionState revision createdAtMs state =>
    have hstate : ReadsAll readRestAsTxState state.encode state := by
      rw [ReadsAll, readRestAsTxState, decodeTxStateRecord_encode h]
    refine ReadsAll.checked ?_ ((reads_u64 _).bindAll ((reads_u64 _).bindAll
      (bind_of_ok hstate)))
    simp only [body, length_append, length_putU64, decide_eq_true_eq]
    omega
  | topicPartition =>
    refine ((reads_string h.1).bind (Reads.checked ?_ ((reads_u32 _).bind
      ((reads_u32 _).bind ((reads_ids h.2 _).last _))))).all
    intro more
    simp only [length_append, length_putU32, length_putIds, decide_eq_true_eq]
    omega
  | brokerRegister =>
    refine (Reads.checked ?_ ((reads_u32 _).bind ((reads_string h.1).bind
      (((reads_roles h.2).orAtEnd ?_).last _)))).all
    · intro more
      simp only [length_append, length_cons, length_putU32, length_putText, decide_eq_true_eq]
      omega
    · rw [length_cons]
      omega
  | topicCreated =>
    exact ((reads_string h).bind (Reads.checked (by simp) ((reads_u32 _).bind
      ((reads_u16 _).last _)))).all
  | topicDeleted => exact ((reads_string h).last _).all
  | partitionLeadershipChange =>
    refine (reads_string h.1).bindAll (ReadsAll.checked ?_ ((reads_u32 _).bindAll
      ((reads_u32 _).bindAll ((reads_u32 _).bindAll
        ((reads_ids h.2.1 _).bindAll (bind_of_ok (readsAll_roster h.2.2)))))))
    simp only [length_append, length_putU32, length_putIds, decide_eq_true_eq]
    omega
  | aclCreated => exact ((reads_binding h).last _).all
  | aclDeleted => exact ((reads_binding h).last _).all
  | brokerUnregister =>
    exact (Reads.checked (by simp) ((reads_u32 _).last _)).all
  | scramCredentialUpsert username iterations salt storedKey serverKey mechanism =>
    have hmechanism : Reads (orAtEnd 1 0 (byte DecodeError.panicked)) [mechanism] mechanism :=
      (reads_byte _).orAtEnd (by simp)
    refine ((reads_string h.1).bind (Reads.checked ?_ ((reads_u32 _).bind
      ((reads_prefixed _ _ h.2.1).bind ((reads_prefixed _ _ h.2.2.1).bind
        ((reads_prefixed _ _ h.2.2.2).bind (hmechanism.last _))))))).all
    intro more
    simp only [length_append, length_putU32, decide_eq_true_eq]
    omega
  | scramCredentialDelete => exact ((reads_string h).last _).all
  | transactionalProducerRegistration =>
    exact ((reads_string h).bind (Reads.checked (by simp) ((reads_u64 _).bind
      ((reads_u16 _).last _)))).all
  | topicConfigChanged topic configs =>
    obtain ⟨htopic, hcount, hconfigs⟩ := h
    have hlt : configs.length < 256 ^ 4 := Nat.lt_of_le_of_lt hcount (by decide)
    have hlen := le_length_flatMap_putConfig configs
    have hmany : Reads (many readConfig configs.length) (configs.flatMap putConfig) configs :=
      reads_many fun config hconfig => (reads_string (hconfigs config hconfig).1).bind
        ((reads_string (hconfigs config hconfig).2).last _)
    refine ((reads_string htopic).bind (Reads.checked ?_ ((reads_number _ hlt).bind
      (Reads.checked ?_ (hmany.last _))))).all
    · intro more
      rw [length_append, BigEndian.length_put, decide_eq_true_iff]
      omega
    · intro more
      rw [Bool.and_eq_true, decide_eq_true_iff, decide_eq_true_iff]
      exact ⟨hcount, by omega⟩

theorem decode_encode {record : MetadataRecord} (h : record.Fits) :
    decode record.encode = .ok record := by
  rw [encode, decode, readsAll_record h]

/-- A record whose fields fit is read back, and so is the state of the transaction in it. -/
theorem roundTrips_of_fits (record : MetadataRecord) (h : record.Fits) :
    decode record.encode = .ok record ∧ ∀ revision createdAtMs state,
      record = transactionState revision createdAtMs state →
        decodeTxStateRecord state.encode = some state := by
  refine ⟨decode_encode h, ?_⟩
  rintro revision createdAtMs state rfl
  exact decodeTxStateRecord_encode h

theorem roundTrips_leadershipChange :
    decode (partitionLeadershipChange ['t'] 0 1 2 [1] (some [1, 2])).encode =
      .ok (partitionLeadershipChange ['t'] 0 1 2 [1] (some [1, 2])) := by
  refine (roundTrips_of_fits _ ?_).1
  exact ⟨by decide, by decide, by simp [maxItems]⟩

end MetadataRecord

/-! ## What is accepted fits

A record that was read could have been written.  Its encoding may be a byte longer than
what it was read from, where a field was missing, but a list that was read takes as much
room as it did. -/

theorem takes_string : Takes readString putText Short := takes_text _ _ _

theorem yields_ids (message : String) :
    Yields (readIds message) (fun ids => ids.length ≤ maxItems) := by
  refine Yields.skip fun count => Yields.checked fun left hcount => Yields.checked fun _ _ => ?_
  rw [Bool.and_eq_true, decide_eq_true_iff] at hcount
  intro src ids rest hsrc
  have hlen := (takes_many (takes_u32 _)).yields _ _ _ hsrc
  rw [hlen.1]
  exact hcount.1

theorem yields_binding : Yields readBinding BindingFits :=
  Yields.checked fun _ _ => Yields.skip fun _ => takes_string.yields.bind fun _ hname =>
    Yields.checked fun _ _ => Yields.skip fun _ => takes_string.yields.bind fun _ hprincipal =>
      takes_string.yields.bind fun _ hhost => Yields.checked fun _ _ => Yields.skip fun _ =>
        Yields.skip fun _ => Yields.pure ⟨hname, hprincipal, hhost⟩

theorem takes_config : Takes readConfig putConfig (fun config => Short config.1 ∧ Short config.2) :=
  takes_string.bind (w := []) fun _ hkey => takes_string.bind fun _ hvalue =>
    completes_pure rfl ⟨hkey, hvalue⟩

theorem takes_partitionRange :
    Takes readPartitionRange PartitionRange.encode (fun range => Short range.topic) := by
  refine (takes_text _ _ _).bind (w := []) fun topic htopic =>
    (takes_u32 _).bind fun _ _ => (takes_u64 _).bind fun _ _ =>
      (takes_u64 _).bind fun _ _ => completes_pure ?_ htopic
  simp [PartitionRange.encode]

theorem takes_partitionRanges : Takes readPartitionRanges putPartitionRanges
    (fun ranges => ranges.length ≤ maxItems ∧ ∀ range ∈ ranges, Short range.topic) := by
  refine (takes_number _).bind (w := []) fun count _ => Completes.checked fun _ hlimit =>
    (takes_many takes_partitionRange).last fun ranges hranges => ?_
  rw [Bool.and_eq_true, decide_eq_true_iff] at hlimit
  obtain ⟨rfl, htopics⟩ := hranges
  exact ⟨rfl, hlimit.1, htopics⟩

theorem txStatusByte_of_ofByte {byte : UInt8} {status : TxStatus}
    (h : ofByte byte = some status) : txStatusByte status = byte := by
  unfold ofByte at h
  split_ifs at h with h₁ h₂ h₃ h₄ h₅
  all_goals
    cases h
    first | exact h₁.symm | exact h₂.symm | exact h₃.symm | exact h₄.symm | exact h₅.symm

theorem encode_of_decodeTxStateRecord {src : Bytes} (h : decodeTxStateRecord src = some state) :
    src = state.encode ∧ state.Fits := by
  rw [decodeTxStateRecord] at h
  split at h
  · next state' rest hread =>
    obtain rfl := Option.some.inj h
    obtain ⟨u, mid, hcheck, hread⟩ := bind_eq_ok hread
    obtain ⟨statusByte, mid₁, hbyte, hread⟩ := bind_eq_ok hread
    obtain ⟨producerId, mid₂, hproducer, hread⟩ := bind_eq_ok hread
    obtain ⟨transactionId, mid₃, hid, hread⟩ := bind_eq_ok hread
    obtain ⟨partitions, mid₄, hpartitions, hread⟩ := bind_eq_ok hread
    obtain ⟨u', mid₅, hend, hread⟩ := bind_eq_ok hread
    obtain ⟨status, mid₆, hstatus, hread⟩ := bind_eq_ok hread
    obtain ⟨rfl, rfl⟩ := pure_eq_ok hread
    obtain ⟨-, rfl⟩ := check_eq_ok hcheck
    obtain ⟨rfl, -⟩ := takes_byte _ _ _ _ hbyte
    obtain ⟨rfl, -⟩ := takes_u64 _ _ _ _ hproducer
    obtain ⟨rfl, hshort⟩ := takes_text _ _ _ _ _ _ hid
    obtain ⟨rfl, hcount, htopics⟩ := takes_partitionRanges _ _ _ hpartitions
    obtain ⟨hempty, rfl⟩ := check_eq_ok hend
    obtain ⟨hofByte, rfl⟩ := lift_eq_ok hstatus
    rw [decide_eq_true_iff, length_eq_zero_iff] at hempty
    subst hempty
    refine ⟨?_, hshort, hcount, htopics⟩
    rw [encode, txStatusByte_of_ofByte hofByte]
    simp
  · cases h

theorem decodeTxStateRecord_encode_of_lt (hid : Short state.transactionId)
    (hcount : maxItems < state.partitions.length) (hlt : state.partitions.length < 256 ^ 4) :
    decodeTxStateRecord state.encode = none := by
  rw [Option.eq_none_iff_forall_ne_some]
  intro state' h
  obtain ⟨hencode, hfits⟩ := encode_of_decodeTxStateRecord h
  have hlt' : state'.partitions.length < 256 ^ 4 := Nat.lt_of_le_of_lt hfits.count (by decide)
  rw [encode, encode, List.cons.injEq] at hencode
  obtain ⟨-, hencode⟩ := (reads_u64 ()).cancel (reads_u64 ()) hencode.2
  obtain ⟨-, hencode⟩ := (reads_text () () () hid).cancel
    (reads_text () () () hfits.transactionId) hencode
  obtain ⟨hsame, -⟩ :=
    (reads_number () hlt).cancel (reads_number () hlt') hencode
  have hcount' := hfits.count
  omega

namespace MetadataRecord

theorem takes_topicConfigChanged : Takes readTopicConfigChanged body Fits := by
  refine takes_string.bind (w := []) fun topic htopic => Completes.checked fun _ _ =>
    (takes_number _).bind fun count _ => Completes.checked fun _ hlimit =>
      (takes_many takes_config).bind fun configs hconfigs => ?_
  rw [Bool.and_eq_true, decide_eq_true_iff] at hlimit
  obtain ⟨rfl, hconfigs⟩ := hconfigs
  exact completes_pure (by simp [body]) ⟨htopic, hlimit.1, hconfigs⟩

theorem takes_transactionState : Takes readTransactionState body Fits := by
  have hstate : Takes readRestAsTxState TxStateRecord.encode TxStateRecord.Fits := by
    intro src state rest hstate
    rw [readRestAsTxState] at hstate
    split at hstate
    · next state' hdecode =>
      obtain ⟨rfl, rfl⟩ := Prod.mk.inj (Except.ok.inj hstate)
      rw [append_nil]
      exact encode_of_decodeTxStateRecord hdecode
    · cases hstate
  exact Completes.checked (w := []) fun _ _ => (takes_u64 _).bind fun _ _ =>
    (takes_u64 _).bind fun _ _ => hstate.bind fun _ hfits =>
      completes_pure (by simp [body]) hfits

/-- What all records but those with long lists are. -/
abbrev Plain (record : MetadataRecord) : Prop := record.Fits ∧ record.isBounded = true

theorem yields_brokerRegister : Yields readBrokerRegister Plain := by
  have hroles : Yields readRoles (fun roles => roles.length < 2 ^ 8) := by
    refine Yields.skip fun count src roles rest hsrc => ?_
    rw [(takes_take _).yields _ _ _ hsrc]
    exact count.toNat_lt
  exact Yields.checked fun _ _ => Yields.skip fun _ => takes_string.yields.bind fun _ haddr =>
    (hroles.orAtEnd (by decide)).bind fun _ hroles => Yields.pure ⟨⟨haddr, hroles⟩, rfl⟩

theorem yields_partitionLeadershipChange : Yields readPartitionLeadershipChange Plain := by
  have hroster : Yields readRoster
      (fun replicas => ∀ roster ∈ replicas, roster.length ≤ maxItems) :=
    (yields_ids _).bind fun ids hids => Yields.pure fun roster hmem => Option.some.inj hmem ▸ hids
  exact takes_string.yields.bind fun _ htopic => Yields.checked fun _ _ => Yields.skip fun _ =>
    Yields.skip fun _ => Yields.skip fun _ => (yields_ids _).bind fun _ hisr =>
      (hroster.orAtEnd (by simp)).bind fun _ hroster => Yields.pure ⟨⟨htopic, hisr, hroster⟩, rfl⟩

theorem yields_scramCredentialUpsert : Yields readScramCredentialUpsert Plain :=
  takes_string.yields.bind fun _ hname => Yields.checked fun _ _ => Yields.skip fun _ =>
    (takes_prefixed _ _).yields.bind fun _ hsalt =>
      (takes_prefixed _ _).yields.bind fun _ hstored =>
        (takes_prefixed _ _).yields.bind fun _ hserver => Yields.skip fun _ =>
          Yields.pure ⟨⟨hname, hsalt, hstored, hserver⟩, rfl⟩

/-- A record is read with fields that fit, and a long one is the bytes it was read from. -/
def Accepts (d : Decoder DecodeError MetadataRecord) : Prop :=
  ∀ src record rest, d src = .ok (record, rest) →
    record.Fits ∧ (record.isBounded = true ∨ src = record.body ++ rest)

variable {d : Decoder DecodeError MetadataRecord}

theorem accepts_of_yields (h : Yields d Plain) : Accepts d := by
  intro src record rest hread
  have hrecord := h _ _ _ hread
  exact ⟨hrecord.1, .inl hrecord.2⟩

theorem accepts_of_takes (h : Takes d body Fits) : Accepts d := by
  intro src record rest hread
  have hrecord := h _ _ _ hread
  exact ⟨hrecord.2, .inr hrecord.1⟩

theorem accepts_readRecord (tag : UInt8) : Accepts (readRecord tag) := by
  unfold readRecord
  split
  · exact accepts_of_yields (takes_string.yields.bind fun _ htopic => Yields.checked fun _ _ =>
      Yields.skip fun _ => Yields.skip fun _ => (yields_ids _).bind fun _ hids =>
        Yields.pure ⟨⟨htopic, hids⟩, rfl⟩)
  · exact accepts_of_yields yields_brokerRegister
  · exact accepts_of_yields (takes_string.yields.bind fun _ htopic => Yields.checked fun _ _ =>
      Yields.skip fun _ => Yields.skip fun _ => Yields.pure ⟨htopic, rfl⟩)
  · exact accepts_of_yields (takes_string.yields.bind fun _ htopic => Yields.pure ⟨htopic, rfl⟩)
  · exact accepts_of_yields yields_partitionLeadershipChange
  · exact accepts_of_yields (yields_binding.bind fun _ hbinding => Yields.pure ⟨hbinding, rfl⟩)
  · exact accepts_of_yields (yields_binding.bind fun _ hbinding => Yields.pure ⟨hbinding, rfl⟩)
  · exact accepts_of_yields (Yields.checked fun _ _ => Yields.skip fun _ =>
      Yields.pure ⟨trivial, rfl⟩)
  · exact accepts_of_yields yields_scramCredentialUpsert
  · exact accepts_of_yields (takes_string.yields.bind fun _ hname => Yields.pure ⟨hname, rfl⟩)
  · exact accepts_of_yields (takes_string.yields.bind fun _ hid => Yields.checked fun _ _ =>
      Yields.skip fun _ => Yields.skip fun _ => Yields.pure ⟨hid, rfl⟩)
  · exact accepts_of_takes takes_topicConfigChanged
  · exact accepts_of_takes takes_transactionState
  · intro src record rest h
    cases h

variable {record : MetadataRecord}

theorem length_body_lt (h : record.Fits) (hbounded : record.isBounded = true) :
    record.body.length < 2 ^ 20 := by
  cases record with
  | transactionState => cases hbounded
  | topicConfigChanged => cases hbounded
  | partitionLeadershipChange topic partition leaderId leaderEpoch isr replicas =>
    obtain ⟨htopic, hisr, hroster⟩ := h
    have hlen : ((replicas.map putIds).getD []).length ≤ 4 + maxItems * 4 := by
      cases replicas with
      | none => exact Nat.zero_le _
      | some roster =>
        have hle := hroster roster rfl
        rw [Option.map_some, Option.getD_some, length_putIds]
        omega
    simp only [Short, maxItems] at htopic hisr hlen
    simp only [body, length_append, length_putText, length_putU32, length_putIds]
    omega
  | aclCreated binding | aclDeleted binding =>
    obtain ⟨hname, hprincipal, hhost⟩ := h
    simp only [Short] at hname hprincipal hhost
    simp only [body, putBinding, length_cons, length_append, length_nil, length_putText]
    omega
  | _ =>
    simp only [Fits, Short, maxItems] at h
    simp only [body, length_append, length_cons, length_nil,
      length_putText, length_putPrefixed, length_putU16,
      length_putU32, length_putU64, length_putIds]
    omega

theorem storable_of_fits (h : record.Fits) (hbounded : record.isBounded = true) :
    record.Storable := by
  have hlen := length_body_lt h hbounded
  exact ⟨h, by rw [encode, length_cons]; omega⟩

theorem storable_of_decode {src : Bytes} (h : decode src = .ok record)
    (hlen : src.length < 2 ^ 32) : record.Storable := by
  cases src with
  | nil => exact absurd h (by simp [decode])
  | cons tag =>
    rw [decode] at h
    split at h
    · next record' rest hread =>
      obtain rfl := Except.ok.inj h
      obtain ⟨hfits, hbounded | hsrc⟩ := accepts_readRecord tag _ _ _ hread
      · exact storable_of_fits hfits hbounded
      · refine ⟨hfits, ?_⟩
        rw [hsrc, length_cons, length_append] at hlen
        rw [encode, length_cons]
        omega
    · cases h

/-- Whatever bytes are accepted, the record read from them is read back from its encoding. -/
theorem decode_encode_decode (src : Bytes) :
    (decode src).bind (fun record => decode record.encode) = decode src := by
  cases src with
  | nil => rfl
  | cons tag src =>
    rw [decode]
    split
    · next record rest hread => exact decode_encode (accepts_readRecord tag _ _ _ hread).1
    · rfl

end MetadataRecord

end Bifrox.Metadata
