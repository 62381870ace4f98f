import TrustFlow.TrustDocs.Revocation

/-!
# Whom a leaked copy names

A shared copy carries an invisible mark for its recipient, and a recipient who passes
the document on passes on a copy of their own copy, with one more mark.  An
extraction reads the first mark of a text.

* `Chain` — a document on its way from the owner through the hands of users, with
  any other requests in between.
* `Chain.marked` — the copy at the end of a chain names its user, or one before them.
* `copy_names_iff` — **the copy names its own user** exactly if it comes from the owner
  directly, or if there was room for a mark in front of the first one.
* `download_names_iff` — **a download is the upload**, and names no one but a candidate
  whom the line ends of the upload give away.
-/

namespace TrustFlow.TrustDocs

open Library Custody Stegano SteganoEngine List Option

namespace Server

variable {S : SignatureScheme} {words : WordClass} {server : Server S}
  {documentId : Uuid}

/-! ## Shared copies -/

variable (words) in
/-- The server after a share request. -/
def afterShare (server : Server S) (amb : Ambient) (user : User) (documentId : Uuid)
    (recipient : User) : Server S :=
  (server.handle words ⟨amb, user, .share documentId recipient.username⟩).1

variable (words) in
/-- The user shares the document with the recipient. -/
def PassesOn (server : Server S) (amb : Ambient) (user : User) (documentId : Uuid)
    (recipient : User) : Prop :=
  server.userByName recipient.username = some recipient ∧
    Succeeds words server ⟨amb, user, .share documentId recipient.username⟩

variable (words) in
/-- **A document on its way.**  `Chain server source users`: the last of the users (the
head of the list) has a copy that came from the owner by way of the others; `source`
is the copy that was passed on to them last, `none` if the owner gave them the
upload. -/
inductive Chain (documentId : Uuid) : Server S → Option Str → List User → Prop
  | owner {server : Server S} {amb : Ambient} {owner recipient : User} {doc : Document}
      {content : Bytes} :
      server.document documentId = some doc → doc.ownerId = owner.id →
      server.files.get? (.original documentId) = some content →
      (∀ c ∈ readText content, isZeroWidth c = false) →
      PassesOn words server amb owner documentId recipient →
      Chain documentId (server.afterShare words amb owner documentId recipient) none [recipient]
  | user {server : Server S} {amb : Ambient} {user recipient : User} {doc : Document}
      {copy : Bytes} {source : Option Str} {users : List User} :
      Chain documentId server source (user :: users) →
      server.document documentId = some doc → doc.ownerId ≠ user.id →
      server.files.get? (.shared documentId user.id) = some copy →
      PassesOn words server amb user documentId recipient →
      Chain documentId (server.afterShare words amb user documentId recipient)
        (some (readText copy)) (recipient :: user :: users)
  | other {server : Server S} {call : Call} {source : Option Str} {user : User}
      {users : List User} :
      Chain documentId server source (user :: users) →
      (server.handle words call).1.files.get? (.shared documentId user.id)
        = server.files.get? (.shared documentId user.id) →
      Chain documentId (server.handle words call).1 source (user :: users)

variable {amb : Ambient} {user : User} {doc : Document} {source : Option Str} {users : List User}
  {content : Bytes}

/-- The copy that a share request writes. -/
theorem PassesOn.copy {recipient : User}
    (h : PassesOn words server amb user documentId recipient)
    (hdoc : server.document documentId = some doc) :
    ∃ content timestamp depth,
      server.files.get? (if doc.ownerId = user.id then .original documentId
        else .shared documentId user.id) = some content ∧
      (server.afterShare words amb user documentId recipient).files.get?
          (.shared documentId recipient.id)
        = some (encodeUtf8 (SteganoEngine.embedText words .all (readText content)
            recipient.peerId timestamp depth)) := by
  obtain ⟨hname, hsucceeds⟩ := h
  obtain ⟨new, hnew⟩ := shareDocument_of_succeeds hsucceeds
  obtain ⟨shared⟩ := shareDocument_ok hnew
  obtain ⟨hfound, hgrant, hrecipient⟩ := checkShare_ok shared.check
  obtain rfl : shared.doc = doc := mem_unique hfound hdoc
  have hid : shared.doc.id = documentId := (Table.get?_eq_some_iff.mp hdoc).2
  have hsame : shared.recipient = recipient := mem_unique hrecipient hname
  refine ⟨shared.bytes, isoformat amb.now.1, shared.depth, ?_, ?_⟩
  · have hsource := shared.source
    rw [sourceFile, hid] at hsource
    simpa only [isNone_iff_eq_none, hgrant] using hsource
  · have hafter : server.afterShare words amb user documentId recipient = _ := shared.result
    rw [hafter, hsame, hid]
    exact Dict.get?_set_self _ _ _

variable (words) in
/-- The mark that stands first in a copy is for its user if there was room for it, and
for one before them if not. -/
structure MarkedBy (source : Option Str) (user : User) (users : List User) (text : Str) : Prop where
  worded : Worded words text
  unix : '\r' ∉ text
  own : (∀ old ∈ source, BlankBeforeMark (getFingerprintSeed user.peerId) old) → Marked user.peerId text
  former : ¬ (∀ old ∈ source, BlankBeforeMark (getFingerprintSeed user.peerId) old) →
    ∃ peerId ∈ users.map User.peerId, Marked peerId text

theorem MarkedBy.exists_marked {text : Str} (h : MarkedBy words source user users text) :
    ∃ peerId ∈ (user :: users).map User.peerId, Marked peerId text := by
  by_cases hroom : ∀ old ∈ source, BlankBeforeMark (getFingerprintSeed user.peerId) old
  · exact ⟨user.peerId, mem_cons_self, h.own hroom⟩
  · obtain ⟨peerId, hpeer, hmarked⟩ := h.former hroom
    exact ⟨peerId, mem_cons_of_mem _ hpeer, hmarked⟩

/-- **The copy at the end of a chain.** -/
theorem Chain.marked (h : Chain words documentId server source (user :: users)) :
    ∃ text, server.files.get? (.shared documentId user.id) = some (encodeUtf8 text) ∧
      MarkedBy words source user users text := by
  generalize hlist : user :: users = list at h
  induction h generalizing user users with
  | owner hdoc howner hfile hclean hpass =>
    obtain ⟨rfl, rfl⟩ := List.cons.inj hlist
    obtain ⟨content, timestamp, depth, hcontent, hcopy⟩ := hpass.copy hdoc
    rw [if_pos howner, hfile] at hcontent
    obtain rfl := some.inj hcontent
    refine ⟨_, hcopy, worded_embedText, cr_notMem_embedText (cr_notMem_readText _),
      fun _ => marked_embedText hclean, fun hnone => ?_⟩
    exact absurd (fun _ h => absurd h (not_mem_none _)) hnone
  | user hchain hdoc howner hfile hpass ih =>
    obtain ⟨rfl, rfl⟩ := List.cons.inj hlist
    obtain ⟨text, htext, hmarked⟩ := ih rfl
    obtain ⟨content, timestamp, depth, hcontent, hcopy⟩ := hpass.copy hdoc
    rw [if_neg howner, htext] at hcontent
    obtain rfl := some.inj hcontent
    obtain rfl := mem_unique htext hfile
    rw [readText_encodeUtf8 hmarked.unix] at hcopy ⊢
    obtain ⟨peerId, hpeer, hold⟩ := hmarked.exists_marked
    have hagain : Marked
        (if BlankBeforeMark (getFingerprintSeed user.peerId) text then user.peerId else peerId)
        (embedText words .all text user.peerId timestamp depth) :=
      marked_again hmarked.worded hold
    have hsource : (∀ old ∈ some text, BlankBeforeMark (getFingerprintSeed user.peerId) old) ↔
        BlankBeforeMark (getFingerprintSeed user.peerId) text := by
      simp only [mem_some_iff, forall_eq']
    refine ⟨_, hcopy, worded_embedText, cr_notMem_embedText hmarked.unix, fun hroom => ?_,
      fun hroom => ⟨peerId, hpeer, ?_⟩⟩
    · rwa [if_pos (hsource.mp hroom)] at hagain
    · rwa [if_neg fun h => hroom (hsource.mpr h)] at hagain
  | other hchain hsame ih =>
    obtain ⟨text, htext, hmarked⟩ := ih hlist
    obtain ⟨rfl, rfl⟩ := List.cons.inj hlist
    exact ⟨text, hsame.trans htext, hmarked⟩

/-- Whom such a copy names. -/
theorem MarkedBy.names_iff {text : Str} (h : MarkedBy words source user users text)
    (hdistinct : ((user :: users).map User.peerId).Nodup) (engine : SteganoEngine)
    (candidatePeers : List Str) :
    (∃ result, extractWatermark words engine text candidatePeers = some result ∧
        result.Names user.peerId) ↔
      ∀ old ∈ source, BlankBeforeMark (getFingerprintSeed user.peerId) old := by
  constructor
  · rintro ⟨result, hresult, hnames⟩
    by_contra hroom
    obtain ⟨peerId, hpeer, hformer⟩ := h.former hroom
    rw [← hformer.eq_of_extract hresult hnames] at hpeer
    exact (nodup_cons.mp hdistinct).1 hpeer
  · intro hroom
    exact (h.own hroom).extract words engine candidatePeers

/-- **The copy of a user names them**, whoever passed the document on before, exactly if
they got it from the owner, or if the copy that was passed on to them had room for a
mark in front of its first one.  The users of the chain are different. -/
theorem copy_names_iff {source : Option Str} {user : User} {users : List User}
    (h : Chain words documentId server source (user :: users))
    (hdistinct : ((user :: users).map User.peerId).Nodup) (engine : SteganoEngine)
    (candidatePeers : List Str) :
    (∃ copy result, server.files.get? (.shared documentId user.id) = some copy ∧
        extractWatermark words engine (decodeReplace copy) candidatePeers = some result ∧
        result.Names user.peerId) ↔
      ∀ old ∈ source, BlankBeforeMark (getFingerprintSeed user.peerId) old := by
  obtain ⟨text, htext, hmarked⟩ := h.marked
  rw [← hmarked.names_iff hdistinct engine candidatePeers, htext]
  constructor
  · rintro ⟨copy, result, hcopy, hresult, hnames⟩
    obtain rfl := some.inj hcopy
    rw [decodeReplace_encodeUtf8] at hresult
    exact ⟨result, hresult, hnames⟩
  · rintro ⟨result, hresult, hnames⟩
    refine ⟨encodeUtf8 text, result, rfl, ?_, hnames⟩
    rw [decodeReplace_encodeUtf8]
    exact hresult

/-! ### In the office -/

/-- The office after alice has shared the minutes with bob. -/
def bobsOffice : Server .tagged := office.afterShare .least (at0 11) alice 7 bob

theorem document_office : office.document 7 = some minutes := by decide

theorem file_office : office.files.get? (.original 7) = some (encodeUtf8 "hello world") :=
  Dict.get?_set_self _ _ _

theorem alice_passesOn : PassesOn .least office (at0 11) alice 7 bob :=
  ⟨by decide, by decide⟩

theorem chain_bob : Chain .least 7 bobsOffice none [bob] := by
  refine .owner document_office rfl file_office ?_ alice_passesOn
  rw [readText_encodeUtf8 (by decide)]
  exact all_iff_forall_prop.mp (by decide)

/-- A colleague in whose copies the first line ends as it did. -/
def dave : User := ⟨4, "dave", "peer-dave"⟩

/-- The office with dave, and with minutes of two lines. -/
def lounge : Server .tagged :=
  { office with
    users := [alice, bob, dave]
    files := Dict.empty.set (.original 7) (encodeUtf8 "hello\nnew world") }

/-- The lounge after alice has shared the minutes with dave. -/
def davesLounge : Server .tagged := lounge.afterShare .least (at0 11) alice 7 dave

/-- The lounge after dave has passed them on to bob. -/
def bobsLounge : Server .tagged := davesLounge.afterShare .least (at0 12) dave 7 bob

theorem alice_passesOn_dave : PassesOn .least lounge (at0 11) alice 7 dave :=
  ⟨by decide, by decide⟩

theorem dave_passesOn : PassesOn .least davesLounge (at0 12) dave 7 bob :=
  ⟨rfl, by decide +kernel⟩

/-- Dave's mark stands in the second line, and the first line ends with a blank for bob. -/
theorem chain_lounge : ∃ old, Chain .least 7 bobsLounge (some old) [bob, dave] ∧
    BlankBeforeMark (getFingerprintSeed bob.peerId) old := by
  have hfile : lounge.files.get? (.original 7) = some (encodeUtf8 "hello\nnew world") :=
    Dict.get?_set_self _ _ _
  have hchain : Chain .least 7 davesLounge none [dave] := by
    refine .owner document_office rfl hfile ?_ alice_passesOn_dave
    rw [readText_encodeUtf8 (by decide)]
    exact all_iff_forall_prop.mp (by decide)
  obtain ⟨content, timestamp, depth, hcontent, hcopy⟩ := alice_passesOn_dave.copy document_office
  rw [if_pos (by rfl), hfile] at hcontent
  obtain rfl := some.inj hcontent
  rw [readText_encodeUtf8 (by decide)] at hcopy
  have hdoc : davesLounge.document 7 = some minutes := by decide
  refine ⟨_, .user hchain hdoc (by decide) hcopy dave_passesOn, ?_⟩
  rw [readText_encodeUtf8 (cr_notMem_embedText (by decide)), blankBeforeMark_embedText _ "" 0]
  decide +kernel

/-- Bob's copy names bob, whether it comes from alice or by way of dave. -/
theorem copy_names_bob :
    (∃ copy result, bobsOffice.files.get? (.shared 7 bob.id) = some copy ∧
      extractWatermark .least ⟨[]⟩ (decodeReplace copy) [] = some result ∧
        result.Names bob.peerId) ∧
    ∃ old, Chain .least 7 bobsLounge (some old) [bob, dave] ∧
      ∃ copy result, bobsLounge.files.get? (.shared 7 bob.id) = some copy ∧
        extractWatermark .least ⟨[]⟩ (decodeReplace copy) [] = some result ∧
          result.Names bob.peerId := by
  obtain ⟨old, hchain, hroom⟩ := chain_lounge
  refine ⟨(copy_names_iff chain_bob (by decide) ⟨[]⟩ []).mpr fun _ h => absurd h (not_mem_none _),
    old, hchain, (copy_names_iff hchain (by decide) ⟨[]⟩ []).mpr ?_⟩
  rintro _ ⟨⟩
  exact hroom

/-- Bob passes the minutes on to carol. -/
theorem bob_passesOn : PassesOn .least bobsOffice (at0 12) bob 7 carol :=
  ⟨rfl, by decide +kernel⟩

/-- The office after bob has passed the minutes on to carol. -/
def carolsOffice : Server .tagged := bobsOffice.afterShare .least (at0 12) bob 7 carol

/-- **Carol's copy names bob**, who passed it on: in bob's copy the mark follows the first
word, and there is no room in front of it. -/
theorem copy_names_former :
    ∃ source copy, Chain .least 7 carolsOffice (some source) [carol, bob] ∧
      carolsOffice.files.get? (.shared 7 carol.id) = some copy ∧
      ∀ engine candidatePeers, ∃ result,
        extractWatermark .least engine (decodeReplace copy) candidatePeers = some result ∧
          result.Names bob.peerId := by
  obtain ⟨content, timestamp, depth, hcontent, hbobs⟩ := alice_passesOn.copy document_office
  rw [if_pos (by rfl), file_office] at hcontent
  obtain rfl := some.inj hcontent
  rw [readText_encodeUtf8 (by decide)] at hbobs
  have hdoc : bobsOffice.document 7 = some minutes := by decide
  have hchain : Chain .least 7 carolsOffice _ [carol, bob] :=
    .user chain_bob hdoc (by decide) hbobs bob_passesOn
  obtain ⟨text, htext, hmarked⟩ := hchain.marked
  rw [readText_encodeUtf8 (cr_notMem_embedText (by decide))] at hmarked
  have hnone : ¬ BlankBeforeMark (getFingerprintSeed carol.peerId)
      (embedText .least .all "hello world" bob.peerId timestamp depth) := by
    rw [blankBeforeMark_embedText _ "" 0]
    decide
  obtain ⟨peerId, hpeer, hformer⟩ := hmarked.former fun hroom => hnone (hroom _ rfl)
  obtain rfl := mem_singleton.mp hpeer
  refine ⟨_, _, hchain, htext, fun engine candidatePeers => ?_⟩
  rw [decodeReplace_encodeUtf8]
  exact hformer.extract _ engine candidatePeers

/-! ## Downloads -/

/-- A request leaves the upload of a document where it is, or the document is gone for
good. -/
theorem original_handle (hdoc : server.document documentId = some doc) {call : Call}
    (hfresh : call.amb.fresh ≠ documentId) :
    (server.handle words call).1.files.get? (.original documentId)
        = server.files.get? (.original documentId) ∨
      ∃ doc', (server.handle words call).1.document documentId = some doc' ∧
        doc'.status = .deleted := by
  obtain ⟨amb, user, request⟩ := call
  cases request with
  | upload filename mimeType content =>
    left
    have hother : StoredFile.original amb.fresh ≠ .original documentId := by
      simpa using hfresh
    simp only [handle, uploadDocument]
    split
    · rfl
    · split <;> exact Dict.get?_set_of_ne _ _ hother
  | get otherId => exact .inl rfl
  | download otherId => exact .inl rfl
  | trace otherId =>
    left
    simp only [handle, getDocumentTrace]
    split
    · rfl
    · rfl
    · split <;> rfl
  | share otherId recipientUsername =>
    left
    simp only [handle]
    cases hreply : (server.shareDocument words amb user otherId recipientUsername).2 with
    | error failure => exact (shareDocument_error hreply).2.2 documentId
    | ok new =>
      obtain ⟨shared⟩ := shareDocument_ok hreply
      rw [shared.result]
      exact Dict.get?_set_of_ne _ _ (by simp)
  | revoke otherId targetUserId =>
    left
    simp only [handle, revokeShare]
    split
    · rfl
    · split
      · rfl
      · split <;> rfl
  | delete otherId =>
    left
    simp only [handle, deleteDocument]
    split <;> rfl
  | restore otherId restoreAccess =>
    left
    simp only [handle, restoreDocument]
    split
    · rfl
    · cases restoreAccess with
      | false => rfl
      | true => rfl
  | purge otherId =>
    simp only [handle, purgeDocument]
    split
    · exact .inl rfl
    · by_cases hsame : otherId = documentId
      · subst hsame
        exact .inr ⟨_, document_setDocumentStatus_self hdoc .deleted, rfl⟩
      · exact .inl (Dict.get?_erase_of_ne _ (by simpa using hsame))

/-- The document is there with its upload, or gone for good. -/
def Keeps (server : Server S) (doc : Document) (content : Bytes) : Prop :=
  ∃ status, server.document doc.id = some { doc with status := status } ∧
    (status = .deleted ∨ server.files.get? (.original doc.id) = some content)

theorem keeps_upload {owner : User} {filename mimeType : Str}
    (h : (server.handle words ⟨amb, owner, .upload filename mimeType content⟩).2
      = .ok (.uploaded doc)) :
    Keeps (server.handle words ⟨amb, owner, .upload filename mimeType content⟩).1 doc
      content := by
  simp only [handle, uploadDocument] at h ⊢
  split at h
  · cases h
  · rename_i hlimit
    rw [if_neg hlimit]
    split at h
    · cases h
    · rename_i documents hinsert
      cases h
      refine ⟨.active, Table.get?_eq_some_iff.mpr ⟨?_, rfl⟩, .inr (Dict.get?_set_self _ _ _)⟩
      exact (Table.mem_of_insert? hinsert).mpr (.inr rfl)

/-- **An upload stays as it is.** -/
theorem Keeps.handle (h : Keeps server doc content) {call : Call} (hfresh : call.amb.fresh ≠ doc.id) :
    Keeps (server.handle words call).1 doc content := by
  obtain ⟨status, hdoc, hfile⟩ := h
  obtain ⟨status', hmoves, hdoc'⟩ := document_handle hdoc call
  refine ⟨status', hdoc', ?_⟩
  rcases hfile with rfl | hfile
  · cases hmoves
    exact .inl rfl
  · rcases original_handle hdoc hfresh with hsame | ⟨doc', hgone, hdeleted⟩
    · exact .inr (hsame.trans hfile)
    · obtain rfl := mem_unique hdoc' hgone
      exact .inl hdeleted

/-- A download that succeeds. -/
theorem downloadDocument_ok {bytes : Bytes}
    (h : server.downloadDocument amb user documentId = .ok bytes) :
    ∃ doc, server.document documentId = some doc ∧ doc.status = .active ∧
      server.files.get? (.original documentId) = some bytes := by
  obtain ⟨doc, hlive, h⟩ := bind_eq_ok.mp h
  obtain ⟨hdoc, hactive⟩ := liveDocument_ok hlive
  have hid : doc.id = documentId := (Table.get?_eq_some_iff.mp hdoc).2
  refine ⟨doc, hdoc, hactive, ?_⟩
  split at h
  · cases h
  · obtain ⟨-, -, h⟩ := bind_eq_ok.mp h
    rw [hid] at h
    split at h
    · cases h
    · rename_i content hcontent
      rw [hcontent, Except.ok.inj h]

theorem Keeps.serve (h : Keeps server doc content) {calls : List Call}
    (hfresh : ∀ call ∈ calls, call.amb.fresh ≠ doc.id) :
    Keeps (server.serve words calls) doc content :=
  List.foldlRecOn (motive := fun server => Keeps server doc content) calls _ h
    fun _ hkeeps call hcall => hkeeps.handle (hfresh call hcall)

/-- A download returns the upload, to whomever. -/
theorem Keeps.download {bytes : Bytes} (h : Keeps server doc content)
    (hdownload : (server.handle words ⟨amb, user, .download doc.id⟩).2 = .ok (.content bytes)) :
    bytes = content := by
  obtain ⟨status, hdoc, hfile⟩ := h
  simp only [Server.handle] at hdownload
  cases hreply : server.downloadDocument amb user doc.id with
  | error failure => rw [hreply] at hdownload; cases hdownload
  | ok served =>
    rw [hreply] at hdownload
    cases hdownload
    obtain ⟨found, hfound, hactive, hserved⟩ := downloadDocument_ok hreply
    obtain rfl := mem_unique hdoc hfound
    rcases hfile with rfl | hfile
    · cases hactive
    · exact some.inj (hserved.symm.trans hfile)

/-- **A download names the user** only by accident: it is the upload, and names the
candidate whom the line ends of the upload give away. -/
theorem download_names_iff {amb amb' : Ambient} {owner user : User} {filename mimeType : Str}
    {content bytes : Bytes} {doc : Document} {calls : List Call}
    (hupload : (server.handle words ⟨amb, owner, .upload filename mimeType content⟩).2
      = .ok (.uploaded doc))
    (hclean : ∀ c ∈ decodeReplace content, isZeroWidth c = false)
    (hcalls : ∀ call ∈ calls, call.amb.fresh ≠ doc.id)
    (hdownload : (((server.handle words ⟨amb, owner, .upload filename mimeType content⟩).1.serve
      words calls).handle words ⟨amb', user, .download doc.id⟩).2 = .ok (.content bytes))
    (engine : SteganoEngine) (candidatePeers : List Str) :
    (∃ result, extractWatermark words engine (decodeReplace bytes) candidatePeers = some result ∧
        result.Names user.peerId) ↔
      StandsOut (decodeReplace content)
        (if candidatePeers = [] then engine.knownPeers else candidatePeers) user.peerId := by
  obtain rfl := ((keeps_upload hupload).serve hcalls).download hdownload
  exact names_iff_standsOut words hclean engine candidatePeers

/-- Minutes whose line ends are those of bob's copies. -/
def spaced : Str := "one \ntwo  \nsix"

/-- The office after alice has uploaded them. -/
def uploadedOffice : Server .tagged × Reply Response :=
  Server.handle .least { office with documents := .empty, files := .empty }
    ⟨at0 7, alice, .upload "minutes.txt" "text/plain" (encodeUtf8 spaced)⟩

/-- Alice uploads the minutes and shares them with bob, who downloads them: the line ends
give bob away. -/
theorem download_names_iff_bob :
    ∃ bytes, ((uploadedOffice.1.serve .least [⟨at0 11, alice, .share 7 bob.username⟩]).handle
        .least ⟨at0 0, bob, .download 7⟩).2 = .ok (.content bytes) ∧
      ∃ result, extractWatermark .least ⟨[]⟩ (decodeReplace bytes) [alice.peerId, bob.peerId]
        = some result ∧ result.Names bob.peerId := by
  have hupload : uploadedOffice.2 = .ok (.uploaded _) := rfl
  have hserved : (uploadedOffice.1.serve .least [⟨at0 11, alice, .share 7 bob.username⟩]
      ).downloadDocument (at0 0) bob 7 = .ok (encodeUtf8 spaced) := by decide +kernel
  have hdownload : ((uploadedOffice.1.serve .least [⟨at0 11, alice, .share 7 bob.username⟩]).handle
      .least ⟨at0 0, bob, .download 7⟩).2 = .ok (.content (encodeUtf8 spaced)) := by
    simp only [handle, hserved]
    rfl
  have hclean : ∀ c ∈ decodeReplace (encodeUtf8 spaced), isZeroWidth c = false := by
    rw [decodeReplace_encodeUtf8]
    exact all_iff_forall_prop.mp (by decide)
  refine ⟨_, hdownload, (download_names_iff hupload hclean (by simp [at0]) hdownload ⟨[]⟩
    [alice.peerId, bob.peerId]).mpr ?_⟩
  rw [decodeReplace_encodeUtf8]
  exact ⟨by decide, by decide, by decide +kernel, by decide +kernel⟩

/-- **Bob's download names nobody.** -/
theorem download_names_nobody :
    (bobsOffice.handle .least ⟨at0 0, bob, .download 7⟩).2
        = .ok (.content (encodeUtf8 "hello world")) ∧
      ∀ engine candidatePeers, ¬ ∃ result,
        extractWatermark .least engine
          (decodeReplace (encodeUtf8 "hello world")) candidatePeers = some result ∧
          result.Names bob.peerId := by
  refine ⟨rfl, fun engine candidatePeers hnames => ?_⟩
  rw [decodeReplace_encodeUtf8] at hnames
  have hclean : ∀ c ∈ "hello world".toList, isZeroWidth c = false :=
    all_iff_forall_prop.mp (by decide)
  have hstands := (names_iff_standsOut .least hclean engine candidatePeers).mp hnames
  -- the text has a single line
  exact absurd hstands.1 (by decide)

end Server

end TrustFlow.TrustDocs
