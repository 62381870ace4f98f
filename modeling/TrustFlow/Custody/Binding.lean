import TrustFlow.Custody.CoCNode

/-!
# What the signature of a node binds

A node is signed as one text: its fields, joined by `|`, with the recipients joined by
`,` in one of them.  A node of the first schema is verified against another text, its
fields without anything in between, and the reader of a dictionary takes the schema from
the dictionary.

* `construct` — the constructor with all its arguments.
* `Agrees` — two nodes have the same signed fields.
* `Unambiguous` — the text of a node can be read in one way only: no field contains `|`,
  and there is one recipient who cannot be taken for none or for several.
* `signature_binds_iff` — the nodes of the second schema or later that carry the
  signature of a node and verify all agree with it, if and only if its text is
  unambiguous; of the first schema there is always one that does not.
-/

namespace TrustFlow.Custody

open Library List

namespace CoCNode

/-- The constructor, with a signing key and all other arguments. -/
def construct (S : SignatureScheme) (contentHash ownerId : Str) (key : S.SigningKey)
    (recipientIds : List Str) (parentHash : Option Str) (depth schemaVersion : ℤ) (now : Instant) :
    CoCNode :=
  let node := { unsigned contentHash ownerId recipientIds parentHash now with
    depth := depth
    schemaVersion }
  let signature := S.sign key (encodeUtf8 node.signingData)
  { node with
    signature := some signature
    nodeHash := hashContent (hexEncode signature ++ ['|'] ++ contentHash) }

/-- The text that the signature of a node is checked against. -/
def checkedText (n : CoCNode) : Str := if 2 ≤ n.schemaVersion then n.signingData else n.legacyData

/-- The two nodes have the same signed fields; no parent is the same as an empty one. -/
structure Agrees (a b : CoCNode) : Prop where
  contentHash : b.contentHash = a.contentHash
  parentHash : b.parentHash.getD [] = a.parentHash.getD []
  ownerId : b.ownerId = a.ownerId
  recipientIds : b.recipientIds = a.recipientIds
  timestamp : b.timestamp = a.timestamp

/-- The node was signed with the key, and its time has the format of `isoformat`. -/
structure SignedWith (S : SignatureScheme) (key : S.SigningKey) (n : CoCNode) : Prop where
  signature : n.signature = some (S.sign key (encodeUtf8 n.signingData))
  timestamp : '|' ∉ n.timestamp

section

variable {S : SignatureScheme} {key : S.SigningKey}

theorem bar_notMem_isoformat (t : ℕ) : '|' ∉ isoformat t := by
  intro hbar
  rcases mem_isoformat hbar with ⟨d, hd, hc⟩ | hmark
  · exact digitChar_ne_bar d (Nat.lt_trans hd (by decide)) hc.symm
  · exact absurd hmark (by decide)

theorem bar_notMem_showInt (z : ℤ) : '|' ∉ showInt z := by
  intro hbar
  rcases mem_showInt hbar with hc | ⟨d, hd, hc⟩
  · cases hc
  · exact digitChar_ne_bar d (Nat.lt_trans hd (by decide)) hc.symm

theorem signedWith_construct (contentHash ownerId : Str) (recipientIds : List Str)
    (parentHash : Option Str) (depth schemaVersion : ℤ) (now : Instant) :
    SignedWith S key
      (construct S contentHash ownerId key recipientIds parentHash depth schemaVersion now) :=
  ⟨rfl, bar_notMem_isoformat now.1⟩

/-- A node that carries the signature verifies exactly for the signed text. -/
theorem SignedWith.verifySignature_iff {a b : CoCNode} (ha : SignedWith S key a)
    (hbinds : S.Binds key (encodeUtf8 a.signingData)) (hsame : b.signature = a.signature) :
    b.verifySignature S (S.verifyKey key) = true ↔ b.checkedText = a.signingData := by
  have hfilter : b.signature.filter (· ≠ []) = some (S.sign key (encodeUtf8 a.signingData)) := by
    rw [hsame, ha.signature]
    exact Option.filter_eq_some_iff.mpr ⟨rfl, decide_eq_true (S.sign_ne_nil _ _)⟩
  rw [verifySignature, hfilter]
  show S.verify _ (encodeUtf8 b.checkedText) _ = true ↔ _
  constructor
  · intro hverify
    exact encodeUtf8_injective (hbinds _ hverify)
  · intro htext
    rw [htext]
    exact S.verify_sign key _

end

/-! ## One way to read a text -/

/-- One recipient, who cannot be taken for none or for several: several recipients come
in order, so at every comma the part in front is the greater one. -/
def OneRecipient (recipientIds : List Str) : Prop :=
  ∃ recipient, recipientIds = [recipient] ∧ recipient ≠ [] ∧
    ∀ front rest, recipient = front ++ ',' :: rest → keyLe front rest = false

/-- The text of the node can be read in one way only. -/
structure Unambiguous (n : CoCNode) : Prop where
  contentHash : '|' ∉ n.contentHash
  parentHash : '|' ∉ n.parentHash.getD []
  ownerId : '|' ∉ n.ownerId
  recipients : '|' ∉ List.intercalate [','] n.recipientIds
  oneRecipient : OneRecipient n.recipientIds

/-- **One recipient is read back** from the joined text of any list in order. -/
theorem eq_of_intercalate_eq {recipientIds recipientIds' : List Str} (h : OneRecipient recipientIds)
    (hsorted : recipientIds'.Pairwise fun s t => keyLe s t = true)
    (heq : List.intercalate [','] recipientIds' = List.intercalate [','] recipientIds) :
    recipientIds' = recipientIds := by
  obtain ⟨recipient, rfl, hne, hcut⟩ := h
  rw [intercalate_singleton] at heq
  cases recipientIds' with
  | nil => exact absurd heq.symm hne
  | cons first more =>
    cases more with
    | nil => rw [← heq, intercalate_singleton]
    | cons second rest =>
      -- the first one is not greater than all that follows
      have hle : keyLe first (.intercalate [','] (second :: rest)) = true := by
        have hfirst : keyLe first second = true :=
          rel_of_pairwise_cons hsorted mem_cons_self
        refine keyLe_trans hfirst ?_
        cases rest with
        | nil =>
          rw [intercalate_singleton]
          exact (keyLe_total second second).elim id id
        | cons third rest =>
          rw [intercalate_cons_cons, append_assoc]
          exact keyLe_append _ _
      have hparts : recipient = first ++ ',' :: .intercalate [','] (second :: rest) := by
        rw [← heq, intercalate_cons_cons, append_assoc]
        rfl
      rw [hcut _ _ hparts] at hle
      cases hle

/-- **An unambiguous text is read back.**  The text of another node of the second schema
or later is the same only if the nodes agree. -/
theorem Unambiguous.agrees {a b : CoCNode} (ha : Unambiguous a) (htime : '|' ∉ a.timestamp)
    (htext : b.signingData = a.signingData) : Agrees a b := by
  have hfields : ∀ field ∈ [showInt a.schemaVersion, a.contentHash, a.parentHash.getD [], a.ownerId,
      .intercalate [','] a.recipientIds, a.timestamp], '|' ∉ field := by
    simp only [forall_mem_cons, not_mem_nil, false_imp_iff, implies_true, and_true]
    exact ⟨bar_notMem_showInt _, ha.contentHash, ha.parentHash, ha.ownerId, ha.recipients, htime⟩
  rw [signingData, signingData] at htext
  have heq := intercalate_inj (cons_ne_nil _ _) (by rfl) hfields htext.symm
  simp only [List.cons.injEq, and_true] at heq
  obtain ⟨-, hcontent, hparent, howner, hrecipients, htimestamp⟩ := heq
  exact ⟨hcontent.symm, hparent.symm, howner.symm,
    eq_of_intercalate_eq ha.oneRecipient b.sorted hrecipients.symm, htimestamp.symm⟩

/-- The fields after the schema, one after the other. -/
def fieldText (contentHash parentHash ownerId recipients timestamp : Str) : Str :=
  contentHash ++ '|' :: (parentHash ++ '|' :: (ownerId ++ '|' :: (recipients ++ '|' :: timestamp)))

theorem signingData_eq (n : CoCNode) :
    n.signingData = showInt n.schemaVersion ++ '|' :: fieldText n.contentHash (n.parentHash.getD [])
      n.ownerId (List.intercalate [','] n.recipientIds) n.timestamp := by
  simp [signingData, fieldText, intercalate_cons_cons, intercalate_singleton]

/-- The schema is part of the text. -/
theorem schemaVersion_eq {a b : CoCNode} (htext : b.signingData = a.signingData) :
    b.schemaVersion = a.schemaVersion := by
  have hfront : ∀ n : CoCNode, n.signingData.takeWhile (· ≠ '|') = showInt n.schemaVersion := by
    intro n
    have hall : ∀ c ∈ showInt n.schemaVersion, decide (c ≠ '|') = true := by
      intro c hc
      refine decide_eq_true ?_
      rintro rfl
      exact bar_notMem_showInt _ hc
    rw [signingData_eq, takeWhile_append_of_pos hall]
    exact append_nil _
  refine showInt_injective ?_
  rw [← hfront, ← hfront, htext]

/-! ## Forged nodes -/

/-- A dictionary with a given signature. -/
def forged (schemaVersion : ℤ) (contentHash parentHash ownerId : Str) (recipientIds : List Str)
    (timestamp : Str) (signature : Bytes) : NodeDict where
  schemaVersion := some schemaVersion
  nodeHash := []
  contentHash := contentHash
  parentHash := some parentHash
  ownerId := ownerId
  recipientIds := some recipientIds
  timestamp := timestamp
  childrenHashes := none
  depth := none
  signature := some (hexEncode signature)

theorem fromDict_forged (schemaVersion : ℤ) (contentHash parentHash ownerId timestamp : Str)
    (recipientIds : List Str) {signature : Bytes} (hne : signature ≠ []) :
    ∃ b, fromDict (forged schemaVersion contentHash parentHash ownerId recipientIds timestamp signature)
        = .ok b ∧ b.signature = some signature ∧ b.schemaVersion = schemaVersion ∧
      b.contentHash = contentHash ∧ b.parentHash = some parentHash ∧ b.ownerId = ownerId ∧
      b.recipientIds = sortStrings recipientIds ∧ b.timestamp = timestamp := by
  have hsome : (some (hexEncode signature)).filter (· ≠ []) = some (hexEncode signature) :=
    Option.filter_eq_some_iff.mpr ⟨rfl, decide_eq_true (hexEncode_ne_nil hne)⟩
  rw [fromDict, forged]
  dsimp only
  rw [hsome]
  dsimp only
  rw [hexDecode_hexEncode]
  exact ⟨_, rfl, rfl, rfl, rfl, rfl, rfl, rfl, rfl⟩

section

variable {S : SignatureScheme} {key : S.SigningKey} {a : CoCNode}

variable (S key a) in
/-- All nodes of the second schema or later that carry the signature and verify agree
with the node. -/
def Bound : Prop :=
  ∀ d b, fromDict d = .ok b → b.signature = a.signature →
    b.verifySignature S (S.verifyKey key) = true → 2 ≤ b.schemaVersion → Agrees a b

variable (ha : SignedWith S key a) (hbinds : S.Binds key (encodeUtf8 a.signingData))
include ha hbinds

/-- Another way to read the text gives a node that verifies. -/
theorem Bound.fields_eq (h : Bound S key a) (hschema : 2 ≤ a.schemaVersion)
    (contentHash parentHash ownerId timestamp : Str) (recipientIds : List Str)
    (hsorted : sortStrings recipientIds = recipientIds)
    (htext : fieldText contentHash parentHash ownerId (List.intercalate [','] recipientIds) timestamp
      = fieldText a.contentHash (a.parentHash.getD []) a.ownerId
        (List.intercalate [','] a.recipientIds) a.timestamp) :
    contentHash = a.contentHash ∧ parentHash = a.parentHash.getD [] ∧ ownerId = a.ownerId ∧
      recipientIds = a.recipientIds := by
  obtain ⟨b, hread, hsignature, hversion, hcontent, hparent, howner, hrecipients, htime⟩ :=
    fromDict_forged a.schemaVersion contentHash parentHash ownerId timestamp recipientIds
      (S.sign_ne_nil key (encodeUtf8 a.signingData))
  rw [hsorted] at hrecipients
  have hsame := hsignature.trans ha.signature.symm
  have hchecked : b.checkedText = a.signingData := by
    rw [checkedText, if_pos (hversion.symm ▸ hschema), signingData_eq, signingData_eq, hversion,
      hcontent, hparent, howner, hrecipients, htime, Option.getD_some, htext]
  have hagrees := h _ b hread hsame ((ha.verifySignature_iff hbinds hsame).mpr hchecked)
    (hversion.symm ▸ hschema)
  refine ⟨hcontent ▸ hagrees.contentHash, ?_, howner ▸ hagrees.ownerId, hrecipients ▸ hagrees.recipientIds⟩
  rw [← hagrees.parentHash, hparent, Option.getD_some]

/-- **A text that binds is unambiguous.**  Every other way to read it would give a node
that differs. -/
theorem Bound.unambiguous (h : Bound S key a) (hschema : 2 ≤ a.schemaVersion) : Unambiguous a := by
  have hone : ∀ s : Str, sortStrings [s] = [s] := fun _ => rfl
  have hread := h.fields_eq ha hbinds hschema
  have hshorter : ∀ {front rest : Str}, front ≠ front ++ '|' :: rest := by
    intro front rest heq
    have hlength := congrArg List.length heq
    rw [length_append, length_cons] at hlength
    omega
  -- all recipients together, taken for one
  have hjoined : [.intercalate [','] a.recipientIds] = a.recipientIds := by
    refine (hread a.contentHash (a.parentHash.getD []) a.ownerId a.timestamp _ (hone _) ?_).2.2.2
    rw [intercalate_singleton]
  generalize hrecipient : List.intercalate [','] a.recipientIds = recipient at hjoined
  rw [hrecipient] at hread
  refine ⟨fun hbar => ?_, fun hbar => ?_, fun hbar => ?_, fun hbar => ?_, recipient, hjoined.symm,
    fun hnil => ?_, fun front rest hcut => ?_⟩
  -- a `|` in a field: the fields after it move up by one, the last two become the time
  · obtain ⟨front, rest, hsplit⟩ := append_of_mem hbar
    have hfields := hread front rest (a.parentHash.getD []) (recipient ++ '|' :: a.timestamp)
      [a.ownerId] (hone _) (by simp [fieldText, hsplit])
    exact hshorter (hfields.1.trans hsplit)
  · obtain ⟨front, rest, hsplit⟩ := append_of_mem hbar
    have hfields := hread a.contentHash front rest (recipient ++ '|' :: a.timestamp)
      [a.ownerId] (hone _) (by simp [fieldText, hsplit])
    exact hshorter (hfields.2.1.trans hsplit)
  · obtain ⟨front, rest, hsplit⟩ := append_of_mem hbar
    have hfields := hread a.contentHash (a.parentHash.getD []) front (recipient ++ '|' :: a.timestamp)
      [rest] (hone _) (by simp [fieldText, hsplit])
    exact hshorter (hfields.2.2.1.trans hsplit)
  · rw [hrecipient] at hbar
    obtain ⟨front, rest, hsplit⟩ := append_of_mem hbar
    have hfields := hread a.contentHash (a.parentHash.getD []) a.ownerId (rest ++ '|' :: a.timestamp)
      [front] (hone _) (by simp [fieldText, hsplit])
    exact hshorter ((List.cons.inj (hfields.2.2.2.trans hjoined.symm)).1.trans hsplit)
  -- no recipient
  · have hfields := hread a.contentHash (a.parentHash.getD []) a.ownerId a.timestamp [] rfl
      (by simp [fieldText, hnil])
    exact absurd (hfields.2.2.2.trans hjoined.symm) (cons_ne_nil _ _).symm
  -- two recipients, cut at a comma
  · by_contra hle
    have hsorted : sortStrings [front, rest] = [front, rest] := by
      refine List.Pairwise.insertionSort_eq (pairwise_pair.mpr ?_)
      exact Bool.eq_true_of_not_eq_false hle
    have hfields := hread a.contentHash (a.parentHash.getD []) a.ownerId a.timestamp [front, rest] hsorted
      (by simp [fieldText, hcut, intercalate_cons_cons, intercalate_singleton])
    cases hfields.2.2.2.trans hjoined.symm

theorem bound_iff : Bound S key a ↔ (2 ≤ a.schemaVersion → Unambiguous a) := by
  constructor
  · exact fun h hschema => h.unambiguous ha hbinds hschema
  · intro h d b _ hsame hverify hschema
    have htext : b.signingData = a.signingData := by
      have hchecked := (ha.verifySignature_iff hbinds hsame).mp hverify
      rwa [checkedText, if_pos hschema] at hchecked
    exact (h (schemaVersion_eq htext ▸ hschema)).agrees ha.timestamp htext

/-- **The first schema forges.**  A dictionary with the whole signed text as content hash,
and all other fields empty, verifies. -/
theorem exists_downgraded : ∃ d b, fromDict d = .ok b ∧ b.signature = a.signature ∧
    b.verifySignature S (S.verifyKey key) = true ∧ b.schemaVersion = 1 ∧ ¬ Agrees a b := by
  obtain ⟨b, hread, hsignature, hversion, hcontent, hparent, howner, hrecipients, htime⟩ :=
    fromDict_forged 1 a.signingData [] [] [] [] (S.sign_ne_nil key (encodeUtf8 a.signingData))
  have hsame := hsignature.trans ha.signature.symm
  refine ⟨_, b, hread, hsame, (ha.verifySignature_iff hbinds hsame).mpr ?_, hversion, fun hagrees => ?_⟩
  · rw [checkedText, if_neg (by rw [hversion]; decide), legacyData, hcontent, hparent, howner,
      hrecipients, htime]
    show a.signingData ++ [] ++ [] ++ [] ++ [] = a.signingData
    simp only [append_nil]
  · have hlength := congrArg List.length (hcontent.symm.trans hagrees.contentHash)
    rw [signingData_eq, fieldText, length_append, length_cons, length_append] at hlength
    omega

end

/-- **What a signature binds.**  Take a node built with a signing key, from any strings
and for any schema, and assume that its signature is accepted for no other text.  The
nodes read from dictionaries that carry its signature and verify under its key agree
with it, as far as they are of the second schema or later: if and only if the node is of
the first schema itself, or its text is unambiguous.  Among those of the first schema
there is always one that does not agree. -/
theorem signature_binds_iff (S : SignatureScheme) (contentHash ownerId : Str) (key : S.SigningKey)
    (recipientIds : List Str) (parentHash : Option Str) (depth schemaVersion : ℤ) (now : Instant)
    {a : CoCNode}
    (ha : a = construct S contentHash ownerId key recipientIds parentHash depth schemaVersion now)
    (hbinds : S.Binds key (encodeUtf8 a.signingData)) :
    ((∀ d b, fromDict d = .ok b → b.signature = a.signature →
        b.verifySignature S (S.verifyKey key) = true → 2 ≤ b.schemaVersion → Agrees a b) ↔
      (2 ≤ a.schemaVersion → Unambiguous a)) ∧
    ∃ d b, fromDict d = .ok b ∧ b.signature = a.signature ∧
      b.verifySignature S (S.verifyKey key) = true ∧ b.schemaVersion = 1 ∧ ¬ Agrees a b := by
  have hsigned : SignedWith S key a := by
    rw [ha]
    exact signedWith_construct contentHash ownerId recipientIds parentHash depth schemaVersion now
  exact ⟨bound_iff hsigned hbinds, exists_downgraded hsigned hbinds⟩

/-! ### An example -/

/-- The text of a node for one recipient. -/
def plainText : Bytes :=
  encodeUtf8 (unsigned "c0ffee" "alice" ["bob"] none ⟨0, datetimeMax_pos⟩).signingData

/-- The node, signed. -/
def plainNode : CoCNode :=
  construct (SignatureScheme.marking plainText) "c0ffee" "alice" () ["bob"] none 0 2
    ⟨0, datetimeMax_pos⟩

theorem binds_plainNode :
    (SignatureScheme.marking plainText).Binds () (encodeUtf8 plainNode.signingData) :=
  SignatureScheme.binds_marking plainText

theorem unambiguous_plainNode : Unambiguous plainNode where
  contentHash := by decide
  parentHash := by decide
  ownerId := by decide
  recipients := by decide
  oneRecipient := by
    refine ⟨"bob", rfl, by decide, fun front rest hcut => ?_⟩
    have hcomma : ',' ∈ "bob".toList := hcut ▸ mem_append_right _ mem_cons_self
    exact absurd hcomma (by decide)

/-- What carries the signature of the node and verifies for the second schema agrees
with it. -/
theorem signature_binds_plainNode :
    ∃ a, a = plainNode ∧ ∀ d b, fromDict d = .ok b → b.signature = a.signature →
      b.verifySignature (SignatureScheme.marking plainText) () = true → 2 ≤ b.schemaVersion →
        Agrees a b :=
  ⟨plainNode, rfl, (signature_binds_iff (.marking plainText) "c0ffee"
    "alice" () ["bob"] none 0 2 ⟨0, datetimeMax_pos⟩ rfl binds_plainNode).1.mpr
      fun _ => unambiguous_plainNode⟩

/-- The node taken for one of the first schema. -/
theorem downgraded_plainNode :
    (SignatureScheme.marking plainText).Binds () (encodeUtf8 plainNode.signingData) ∧
    ∃ d b, fromDict d = .ok b ∧ b.signature = plainNode.signature ∧
      b.verifySignature (SignatureScheme.marking plainText) () = true ∧ ¬ Agrees plainNode b := by
  refine ⟨binds_plainNode, ?_⟩
  obtain ⟨d, b, hread, hsame, hverify, -, hdiffers⟩ :=
    exists_downgraded (signedWith_construct "c0ffee" "alice" ["bob"] none 0 2
      ⟨0, datetimeMax_pos⟩) binds_plainNode
  exact ⟨d, b, hread, hsame, hverify, hdiffers⟩

end CoCNode

end TrustFlow.Custody
