import Arxia.Causality.Views
import Arxia.Gossip.DoubleSpends

/-!
# Double spends in a mesh

Nodes add blocks and merge the registries of each other, at any time and however old these are. A
registry that somebody made up may be merged as well; it is an operation of the node that merges it.

Merging passes entries on, so a hash that was offered somewhere reaches a node with the events of
its causal past. While no registry entry is evicted, a conflict on a key is named in the past of a
node just if two hashes for the key were offered in that past: nothing a node could have noticed
goes unnoticed, and nothing is reported without both sides of it being there. Nodes that know of the
same offers agree on every key that is not in conflict.
-/

namespace Arxia

open Rust Transition Causality

namespace GossipNode

variable {ι : Type}

/-- Nodes with these ids and capacities, which receive the registries of each other. -/
def mesh (K : Crates) (nodeId : ι → String) (a b : ι → ℕ) :
    Service ι Request Response GossipNode where
  start := fun i ↦ withCapacity (nodeId i) (a i) (b i)
  perform := fun request node ↦ handle K node request
  receive := fun message node ↦ handle K node (.mergeRegistry message.nonceRegistry)

/-- What has happened at the node, and what it answered. -/
abbrev Entry (ι : Type) := Event ι Request × Response

/-- Some request of these offers the hash for the key. -/
def Offered (K : Crates) (tr : List (Entry ι)) (past : ℕ → Prop) (key : NonceKey)
    (hash : NonceEntry) : Prop :=
  ∃ n i request response, past n ∧ tr[n]? = some (.perform i request, response) ∧
    offeredBy K request key = some hash

/-- Two hashes for the key are offered. -/
def Disputed (K : Crates) (tr : List (Entry ι)) (past : ℕ → Prop) (key : NonceKey) : Prop :=
  ∃ hash hash', Offered K tr past key hash ∧ Offered K tr past key hash' ∧ hash ≠ hash'

/-- The answer names a conflict on the key: a block for it is refused as a double spend, or it is
among the conflicts that are returned. -/
def Names (K : Crates) : Entry ι → NonceKey → Prop
  | (.perform _ (.addBlock block), .added result), key =>
    (∃ hash, registryEntry K block = .ok (key, hash)) ∧ result = .error (.doubleSpend block.nonce)
  | (_, .conflicts conflicts), key => ∃ c ∈ conflicts, c.key = key
  | _, _ => False

/-- A conflict on the key is named in the past. -/
def Named (K : Crates) (tr : List (Entry ι)) (past : ℕ → Prop) (key : NonceKey) : Prop :=
  ∃ n l, past n ∧ tr[n]? = some l ∧ Names K l key

variable {K : Crates} {tr : List (Entry ι)} {l : Entry ι} {past past' : ℕ → Prop}
  {key : NonceKey} {hash hash' : NonceEntry} {node node' : GossipNode}

/-! ## Pasts -/

theorem Offered.mono (h : Offered K tr past key hash) (hsub : ∀ n, past n → past' n) :
    Offered K tr past' key hash := by
  obtain ⟨n, i, request, response, hn, hrest⟩ := h
  exact ⟨n, i, request, response, hsub n hn, hrest⟩

theorem Disputed.mono (h : Disputed K tr past key) (hsub : ∀ n, past n → past' n) :
    Disputed K tr past' key := by
  obtain ⟨hash, hash', hoffered, hoffered', hne⟩ := h
  exact ⟨hash, hash', hoffered.mono hsub, hoffered'.mono hsub, hne⟩

theorem Named.mono (h : Named K tr past key) (hsub : ∀ n, past n → past' n) :
    Named K tr past' key := by
  obtain ⟨n, l, hn, hrest⟩ := h
  exact ⟨n, l, hsub n hn, hrest⟩

theorem offered_append {tr' : List (Entry ι)} (hpast : ∀ n, past n → n < tr.length) :
    Offered K (tr ++ tr') past key hash ↔ Offered K tr past key hash := by
  constructor
  · rintro ⟨n, i, request, response, hn, hget, hoffered⟩
    rw [List.getElem?_append_left (hpast n hn)] at hget
    exact ⟨n, i, request, response, hn, hget, hoffered⟩
  · rintro ⟨n, i, request, response, hn, hget, hoffered⟩
    refine ⟨n, i, request, response, hn, ?_, hoffered⟩
    rwa [List.getElem?_append_left (hpast n hn)]

theorem named_append {tr' : List (Entry ι)} (hpast : ∀ n, past n → n < tr.length) :
    Named K (tr ++ tr') past key ↔ Named K tr past key := by
  refine exists_congr fun n ↦ exists_congr fun l ↦ and_congr_right fun hn ↦ ?_
  rw [List.getElem?_append_left (hpast n hn)]

theorem disputed_append {tr' : List (Entry ι)} (hpast : ∀ n, past n → n < tr.length) :
    Disputed K (tr ++ tr') past key ↔ Disputed K tr past key := by
  simp only [Disputed, offered_append hpast]

/-- Check sync status against a peer registry. -/
def checkSync (peerRegistry : NonceRegistry) (node : GossipNode) : SyncResult :=
  syncNoncesBeforeL1 node.nonceRegistry peerRegistry

/-- The last event offers what its request does. -/
theorem offered_last {i : ι} {request : Request} {response : Response}
    (h : offeredBy K request key = some hash) :
    Offered K (tr ++ [(.perform i request, response)]) (fun n ↦ n = tr.length) key hash :=
  ⟨tr.length, i, request, response, rfl, List.getElem?_concat_length, h⟩

/-! ## One call -/

/-- **Nothing comes from nowhere**: an entry of the registry was there before or is offered. -/
theorem Kept.lookup_or_offered (h : Kept node) {request : Request} {response : Response}
    (hhandle : handle K node request = some (response, node'))
    (hlookup : node'.nonceRegistry.lookup key = some hash) :
    node.nonceRegistry.lookup key = some hash ∨ offeredBy K request key = some hash := by
  obtain ⟨⟨gone, hround⟩, -⟩ := h.round hhandle
  have hmem := (hround.tracked.mem_iff key).mpr (HashMap.mem_of_lookup hlookup)
  rw [hround.lookup key hmem, Option.or_eq_some_iff] at hlookup
  exact hlookup.imp id And.right

/-- The keys that a call enters are those it offers a hash for and that are not there yet. -/
theorem mem_insertedBy {request : Request} : key ∈ insertedBy K node request ↔
    key ∉ node.nonceRegistry ∧ ∃ hash, offeredBy K request key = some hash := by
  rcases request with block | remote | _
  · rcases hentry : registryEntry K block with e | ⟨key', hash⟩
    · simp [insertedBy, offeredBy, hentry]
    · by_cases hmem : key' ∈ node.nonceRegistry
      · simp only [insertedBy, offeredBy, hentry, if_pos hmem, List.not_mem_nil, false_iff]
        rintro ⟨hnew, hash', hoffered⟩
        obtain ⟨rfl, -⟩ := offeredBy_addBlock hentry (by rwa [offeredBy, hentry])
        exact hnew hmem
      · simp only [insertedBy, offeredBy, hentry, if_neg hmem, List.mem_singleton]
        constructor
        · rintro rfl
          exact ⟨hmem, hash, if_pos rfl⟩
        · rintro ⟨-, hash', hoffered⟩
          exact (offeredBy_addBlock hentry (by rwa [offeredBy, hentry])).1
  · simp only [insertedBy, offeredBy, List.mem_map, List.mem_filter, decide_eq_true_iff]
    constructor
    · rintro ⟨e, ⟨he, hnew⟩, rfl⟩
      exact ⟨hnew, e.2, HashMap.mem_inOrder.mp he⟩
    · rintro ⟨hnew, hash, hlookup⟩
      exact ⟨(key, hash), ⟨HashMap.mem_inOrder.mpr hlookup, hnew⟩, rfl⟩
  · simp [insertedBy, offeredBy]

/-- What is reported is named. -/
theorem names_of_reports {i : ι} {request : Request} {response : Response}
    (hoffered : offeredBy K request key = some hash')
    (h : Reports request response ⟨key, hash, hash'⟩) :
    Names K (.perform i request, response) key := by
  rcases request with block | remote | _ <;> rcases response with result | conflicts
  · rcases hentry : registryEntry K block with e | ⟨key', entry⟩
    · rw [offeredBy, hentry] at hoffered
      cases hoffered
    · obtain ⟨rfl, rfl⟩ := offeredBy_addBlock hentry hoffered
      obtain ⟨-, -, -, hnonce⟩ := registryEntry_eq_ok.mp hentry
      exact ⟨⟨hash', hentry⟩, h.trans (by rw [hnonce])⟩
  · exact h.elim
  · exact h.elim
  · exact ⟨_, h, rfl⟩
  · exact h.elim
  · exact h.elim

/-- **A call that evicts nothing** registers what is new. -/
theorem Kept.lookup_of_new (h : Kept node) {request : Request} {response : Response}
    (hhandle : handle K node request = some (response, node'))
    (hnone : node'.nonceRegistryDropped = 0) (hnew : key ∉ node.nonceRegistry)
    (hoffered : offeredBy K request key = some hash) :
    node'.nonceRegistry.lookup key = some hash := by
  obtain ⟨⟨gone, hround⟩, -⟩ := h.round hhandle
  have hdropped := hround.dropped
  rw [hnone, UInt64.toNat_zero] at hdropped
  have hlimit : 0 < u64Max := by decide
  have horder := hround.round
  rw [List.eq_nil_of_length_eq_zero (by omega : gone.length = 0), List.nil_append] at horder
  have hmem : key ∈ node'.nonceRegistryOrder :=
    horder ▸ List.mem_append_right _ (mem_insertedBy.mpr ⟨hnew, hash, hoffered⟩)
  rw [hround.lookup key hmem, AList.lookup_eq_none.mpr hnew, hoffered, Option.none_or]

theorem Kept.mem_of_mem (h : Kept node) {request : Request} {response : Response}
    (hhandle : handle K node request = some (response, node'))
    (hnone : node'.nonceRegistryDropped = 0) (hmem : key ∈ node.nonceRegistry) :
    key ∈ node'.nonceRegistry := by
  obtain ⟨hash, hlookup⟩ := HashMap.exists_lookup hmem
  exact HashMap.mem_of_lookup ((h.lookup_of_dropped hhandle hnone).2 key hash hlookup)

theorem Kept.mem_of_offered (h : Kept node) {request : Request} {response : Response}
    (hhandle : handle K node request = some (response, node'))
    (hnone : node'.nonceRegistryDropped = 0) (hoffered : offeredBy K request key = some hash) :
    key ∈ node'.nonceRegistry := by
  by_cases hmem : key ∈ node.nonceRegistry
  · exact h.mem_of_mem hhandle hnone hmem
  · exact HashMap.mem_of_lookup (h.lookup_of_new hhandle hnone hmem hoffered)

/-- And another hash for an old key makes it name the key. -/
theorem Kept.lookup_or_names (h : Kept node) {i : ι} {request : Request} {response : Response}
    (hhandle : handle K node request = some (response, node'))
    (hnone : node'.nonceRegistryDropped = 0) (hoffered : offeredBy K request key = some hash) :
    node'.nonceRegistry.lookup key = some hash ∨ Names K (.perform i request, response) key := by
  by_cases hmem : key ∈ node.nonceRegistry
  · obtain ⟨existing, hlookup⟩ := HashMap.exists_lookup hmem
    by_cases hsame : hash = existing
    · exact Or.inl ((h.lookup_of_dropped hhandle hnone).2 key hash (hsame ▸ hlookup))
    · exact Or.inr (names_of_reports hoffered (reports_of_lookup hhandle hlookup hoffered hsame))
  · exact Or.inl (h.lookup_of_new hhandle hnone hmem hoffered)

/-- What a call names is offered against an entry of the registry, or has been pending. -/
theorem clash_of_names {i : ι} {request : Request} {response : Response}
    (hhandle : handle K node request = some (response, node'))
    (h : Names K (.perform i request, response) key) :
    (∃ hash hash', node.nonceRegistry.lookup key = some hash ∧
        offeredBy K request key = some hash' ∧ hash ≠ hash') ∨
      ∃ c ∈ node.pendingConflicts, c.key = key := by
  cases does_of_handle hhandle with
  | rejected hentry =>
    obtain ⟨⟨hash, hok⟩, -⟩ := h
    cases hentry.symm.trans hok
  | @registered block key' hash existing hentry hlookup =>
    obtain ⟨⟨hash', hok⟩, hrefused⟩ := h
    obtain ⟨rfl, rfl⟩ := Prod.mk.inj (Except.ok.inj (hentry.symm.trans hok))
    refine Or.inl ⟨existing, hash, hlookup, ?_, fun hsame ↦ ?_⟩
    · rw [offeredBy, hentry]
      exact if_pos rfl
    · rw [if_pos hsame] at hrefused
      cases hrefused
  | stored hentry hlookup =>
    obtain ⟨-, hrefused⟩ := h
    cases hrefused
  | merged remote =>
    obtain ⟨c, hc, rfl⟩ := h
    obtain ⟨hlocal, hremote, hne⟩ := mem_conflicts_iff.mp hc
    exact Or.inl ⟨_, _, hlocal, hremote, hne⟩
  | drained => exact Or.inr h

/-- What is pending after a call was pending before or is offered against an entry. -/
theorem Kept.clash_of_pending (h : Kept node) {request : Request} {response : Response}
    (hhandle : handle K node request = some (response, node')) {c : NonceConflict}
    (hc : c ∈ node'.pendingConflicts) :
    (∃ hash hash', node.nonceRegistry.lookup c.key = some hash ∧
        offeredBy K request c.key = some hash' ∧ hash ≠ hash') ∨ c ∈ node.pendingConflicts := by
  rw [h.pendingConflicts_eq hhandle] at hc
  rcases request with block | remote | _
  · exact Or.inr hc
  · refine (List.mem_append.mp hc).symm.imp_left fun hc ↦ ?_
    obtain ⟨hlocal, hremote, hne⟩ := mem_conflicts_iff.mp hc
    exact ⟨_, _, hlocal, hremote, hne⟩
  · exact absurd hc List.not_mem_nil

/-! ## What a node holds has come of its past -/

/-- What the registry of a node holds, what is pending there and what is named in its past has been
offered in the past. -/
structure Grounded (K : Crates) (tr : List (Entry ι)) (past : ℕ → Prop) (node : GossipNode) :
    Prop where
  kept : Kept node
  entries : ∀ key hash, node.nonceRegistry.lookup key = some hash → Offered K tr past key hash
  pending : ∀ c ∈ node.pendingConflicts, Disputed K tr past c.key
  named : ∀ key, Named K tr past key → Disputed K tr past key

/-- A hash is registered for each key that is offered, and it is the only one unless a conflict on
the key is named. -/
structure Watchful (K : Crates) (tr : List (Entry ι)) (past : ℕ → Prop) (node : GossipNode) :
    Prop where
  kept : Kept node
  registered : ∀ key hash, Offered K tr past key hash → key ∈ node.nonceRegistry
  settled : ∀ key hash, Offered K tr past key hash → ¬ Named K tr past key →
    node.nonceRegistry.lookup key = some hash

theorem Grounded.extend (h : Grounded K tr past node) (hpast : ∀ n, past n → n < tr.length) :
    Grounded K (tr ++ [l]) past node where
  kept := h.kept
  entries := fun key hash hlookup ↦ (offered_append hpast).mpr (h.entries key hash hlookup)
  pending := fun c hc ↦ (disputed_append hpast).mpr (h.pending c hc)
  named := fun key hnamed ↦
    (disputed_append hpast).mpr (h.named key ((named_append hpast).mp hnamed))

theorem Watchful.extend (h : Watchful K tr past node) (hpast : ∀ n, past n → n < tr.length) :
    Watchful K (tr ++ [l]) past node where
  kept := h.kept
  registered := fun key hash hoffered ↦
    h.registered key hash ((offered_append hpast).mp hoffered)
  settled := fun key hash hoffered hnamed ↦
    h.settled key hash ((offered_append hpast).mp hoffered)
      fun hn ↦ hnamed ((named_append hpast).mpr hn)

/-- **A call** keeps a node grounded, if what it offers is, and what else is named. -/
theorem Grounded.call (h : Grounded K tr past node) {i : ι} {request : Request}
    {response : Response} (hhandle : handle K node request = some (response, node'))
    (hsub : ∀ n, past n → past' n)
    (hoffers : ∀ key hash, offeredBy K request key = some hash → Offered K tr past' key hash)
    (hnamed : ∀ key, Named K tr past' key →
      Disputed K tr past' key ∨ Names K (.perform i request, response) key) :
    Grounded K tr past' node' := by
  have hclash : ∀ {key}, (∃ hash hash', node.nonceRegistry.lookup key = some hash ∧
      offeredBy K request key = some hash' ∧ hash ≠ hash') → Disputed K tr past' key := by
    rintro key ⟨hash, hash', hlookup, hoffered, hne⟩
    exact ⟨hash, hash', (h.entries key hash hlookup).mono hsub, hoffers key hash' hoffered, hne⟩
  refine ⟨h.kept.step hhandle, fun key hash hlookup ↦ ?_, fun c hc ↦ ?_, fun key hkey ↦ ?_⟩
  · rcases h.kept.lookup_or_offered hhandle hlookup with hold | hoffered
    · exact (h.entries key hash hold).mono hsub
    · exact hoffers key hash hoffered
  · rcases h.kept.clash_of_pending hhandle hc with hnew | hold
    · exact hclash hnew
    · exact (h.pending c hold).mono hsub
  · rcases hnamed key hkey with hdisputed | hnames
    · exact hdisputed
    rcases clash_of_names hhandle hnames with hnew | ⟨c, hc, rfl⟩
    · exact hclash hnew
    · exact (h.pending c hc).mono hsub

/-- **A call that evicts nothing** keeps a node watchful, if it is offered what comes in. -/
theorem Watchful.call (h : Watchful K tr past node) {i : ι} {request : Request}
    {response : Response} (hhandle : handle K node request = some (response, node'))
    (hnone : node'.nonceRegistryDropped = 0) (hsub : ∀ n, past n → past' n)
    (hoffers : ∀ key hash, Offered K tr past' key hash → Offered K tr past key hash ∨
      (∃ hash', offeredBy K request key = some hash') ∧
        (¬ Named K tr past' key → offeredBy K request key = some hash))
    (hnames : ∀ key, Names K (.perform i request, response) key → Named K tr past' key) :
    Watchful K tr past' node' := by
  refine ⟨h.kept.step hhandle, fun key hash hoffered ↦ ?_, fun key hash hoffered hquiet ↦ ?_⟩
  · rcases hoffers key hash hoffered with hold | ⟨⟨hash', hnew⟩, -⟩
    · exact h.kept.mem_of_mem hhandle hnone (h.registered key hash hold)
    · exact h.kept.mem_of_offered hhandle hnone hnew
  · rcases hoffers key hash hoffered with hold | ⟨-, hnew⟩
    · have hlookup := h.settled key hash hold fun hn ↦ hquiet (hn.mono hsub)
      exact (h.kept.lookup_of_dropped hhandle hnone).2 key hash hlookup
    · refine (h.kept.lookup_or_names (i := i) hhandle hnone (hnew hquiet)).resolve_right ?_
      exact fun hn ↦ hquiet (hnames key hn)

/-- What is named in a past with one more event. -/
theorem Named.cases_last (h : Named K (tr ++ [l]) (fun n ↦ n = tr.length ∨ past n) key) :
    Names K l key ∨ Named K (tr ++ [l]) past key := by
  obtain ⟨n, l', rfl | hn, hget, hnames⟩ := h
  · rw [List.getElem?_concat_length, Option.some_inj] at hget
    exact Or.inl (hget ▸ hnames)
  · exact Or.inr ⟨n, l', hn, hget, hnames⟩

theorem named_last (h : Names K l key) :
    Named K (tr ++ [l]) (fun n ↦ n = tr.length ∨ past n) key :=
  ⟨tr.length, l, Or.inl rfl, List.getElem?_concat_length, h⟩

theorem Named.cases_or (h : Named K tr (fun n ↦ past n ∨ past' n) key) :
    Named K tr past key ∨ Named K tr past' key := by
  obtain ⟨n, l, hn | hn, hrest⟩ := h
  · exact Or.inl ⟨n, l, hn, hrest⟩
  · exact Or.inr ⟨n, l, hn, hrest⟩

/-- What is offered in a past with one more event. -/
theorem Offered.cases_last
    (h : Offered K (tr ++ [l]) (fun n ↦ n = tr.length ∨ past n) key hash) :
    (∃ i request response, l = (.perform i request, response) ∧
        offeredBy K request key = some hash) ∨ Offered K (tr ++ [l]) past key hash := by
  obtain ⟨n, i, request, response, rfl | hn, hget, hoffered⟩ := h
  · rw [List.getElem?_concat_length, Option.some_inj] at hget
    exact Or.inl ⟨i, request, response, hget, hoffered⟩
  · exact Or.inr ⟨n, i, request, response, hn, hget, hoffered⟩

theorem Offered.cases_or (h : Offered K tr (fun n ↦ past n ∨ past' n) key hash) :
    Offered K tr past key hash ∨ Offered K tr past' key hash := by
  obtain ⟨n, i, request, response, hn | hn, hrest⟩ := h
  · exact Or.inl ⟨n, i, request, response, hn, hrest⟩
  · exact Or.inr ⟨n, i, request, response, hn, hrest⟩

/-- A receipt names what the merge of the registry does. -/
theorem names_receive {i : ι} {source : Option ℕ} {remote : NonceRegistry} {response : Response} :
    Names K (.receive i source, response) key ↔
      Names K (.perform i (.mergeRegistry remote), response) key := by
  rcases response with result | conflicts <;> rfl

theorem Watchful.named_iff (h : Watchful K tr past node) (h' : Grounded K tr past node) :
    Named K tr past key ↔ Disputed K tr past key := by
  refine ⟨h'.named key, ?_⟩
  rintro ⟨hash, hash', hoffered, hoffered', hne⟩
  by_contra hquiet
  have hlookup := h.settled key hash hoffered hquiet
  exact hne (Option.some_inj.mp (hlookup.symm.trans (h.settled key hash' hoffered' hquiet)))

/-- The registry of a watchful node has just the keys that are offered. -/
theorem Watchful.mem_iff (h : Watchful K tr past node) (h' : Grounded K tr past node) :
    key ∈ node.nonceRegistry ↔ ∃ hash, Offered K tr past key hash := by
  constructor
  · intro hmem
    obtain ⟨hash, hlookup⟩ := HashMap.exists_lookup hmem
    exact ⟨hash, h'.entries key hash hlookup⟩
  · rintro ⟨hash, hoffered⟩
    exact h.registered key hash hoffered

/-! ## Runs of a mesh -/

variable [DecidableEq ι] {nodeId : ι → String} {a b : ι → ℕ} {s : State ι GossipNode}

/-- **Nothing comes from nowhere**, in any run. -/
theorem grounded_of_run (run : (mesh K nodeId a b).system.Run tr s) :
    (∀ i, Grounded K tr (Service.Knows tr i) (s.current i)) ∧
      ∀ k node, s.stamps[k]? = some node →
        Grounded K tr (fun n ↦ InPast (Service.events tr) n k) node := by
  refine Service.views (Q := fun _ ↦ True) (F := Grounded K) ?_ ?_ ?_ ?_ run fun _ _ ↦ trivial
  · refine fun i ↦ ⟨kept_withCapacity _ _ _, fun key hash hlookup ↦ ?_, fun c hc ↦ ?_, ?_⟩
    · exact absurd (HashMap.mem_of_lookup hlookup) (AList.notMem_empty key)
    · exact absurd hc List.not_mem_nil
    · rintro key ⟨n, l, hn, -⟩
      exact hn.elim
  · exact fun tr l past node hpast h ↦ h.extend hpast
  · intro tr i request response past node node' h hhandle _
    refine h.call (i := i) hhandle (fun n ↦ Or.inr) (fun key hash hoffered ↦ ?_)
      fun key hkey ↦ ?_
    · exact (offered_last hoffered).mono fun n ↦ Or.inl
    · exact hkey.cases_last.symm.imp_left fun hold ↦ (h.named key hold).mono fun n ↦ Or.inr
  · intro tr i k response past past' node message node' h hmessage hhandle _
    change handle K node (.mergeRegistry message.nonceRegistry) = _ at hhandle
    refine h.call (i := i) hhandle (fun n hn ↦ Or.inr (Or.inl hn)) (fun key hash hoffered ↦ ?_)
      fun key hkey ↦ ?_
    · exact (hmessage.entries key hash hoffered).mono fun n hn ↦ Or.inr (Or.inr hn)
    · rcases hkey.cases_last with hnames | hold
      · exact Or.inr (names_receive.mp hnames)
      · refine Or.inl (hold.cases_or.elim (fun hold ↦ ?_) fun hold ↦ ?_)
        · exact (h.named key hold).mono fun n hn ↦ Or.inr (Or.inl hn)
        · exact (hmessage.named key hold).mono fun n hn ↦ Or.inr (Or.inr hn)

/-- **Nothing is lost**, in a run that evicts no registry entry. -/
theorem watchful_of_run (run : (mesh K nodeId a b).system.Run tr s)
    (hnone : ∀ node ∈ s.stamps, node.nonceRegistryDropped = 0) :
    (∀ i, Watchful K tr (Service.Knows tr i) (s.current i)) ∧
      ∀ k node, s.stamps[k]? = some node →
        Watchful K tr (fun n ↦ InPast (Service.events tr) n k) node := by
  refine Service.views (Q := fun node ↦ node.nonceRegistryDropped = 0) (F := Watchful K)
    ?_ ?_ ?_ ?_ run hnone
  · refine fun i ↦ ⟨kept_withCapacity _ _ _, ?_, ?_⟩
    · rintro key hash ⟨n, i, request, response, hn, -⟩
      exact hn.elim
    · rintro key hash ⟨n, i, request, response, hn, -⟩
      exact hn.elim
  · exact fun tr l past node hpast h ↦ h.extend hpast
  · intro tr i request response past node node' h hhandle hnone
    refine h.call hhandle hnone (fun n ↦ Or.inr) (fun key hash hoffered ↦ ?_)
      fun key hnames ↦ named_last hnames
    rcases hoffered.cases_last with ⟨i', request', response', hlast, hnew⟩ | hold
    · obtain ⟨hevent, rfl⟩ := Prod.mk.inj hlast
      obtain ⟨rfl, rfl⟩ := Event.perform.inj hevent
      exact Or.inr ⟨⟨hash, hnew⟩, fun _ ↦ hnew⟩
    · exact Or.inl hold
  · intro tr i k response past past' node message node' h hmessage hhandle hnone
    change handle K node (.mergeRegistry message.nonceRegistry) = _ at hhandle
    refine h.call hhandle hnone (fun n hn ↦ Or.inr (Or.inl hn)) (fun key hash hoffered ↦ ?_)
      fun key hnames ↦ named_last (names_receive.mpr hnames)
    rcases hoffered.cases_last with ⟨_, _, _, hlast, -⟩ | hold
    · cases (Prod.mk.inj hlast).1
    -- what the message has come of is in its registry
    refine hold.cases_or.imp_right fun hold ↦ ⟨?_, fun hquiet ↦ ?_⟩
    · exact HashMap.exists_lookup (hmessage.registered key hash hold)
    · exact hmessage.settled key hash hold fun hn ↦
        hquiet (hn.mono fun n hn ↦ Or.inr (Or.inr hn))

/-- **A double spend is named in a past just if both sides of it are there**: in a run that evicts
no registry entry, for the past of a node and for the past of any event. -/
theorem named_iff_disputed (run : (mesh K nodeId a b).system.Run tr s)
    (hnone : ∀ node ∈ s.stamps, node.nonceRegistryDropped = 0) (key : NonceKey) :
    (∀ i, Named K tr (Service.Knows tr i) key ↔ Disputed K tr (Service.Knows tr i) key) ∧
      ∀ n < tr.length, Named K tr (fun m ↦ InPast (Service.events tr) m n) key ↔
        Disputed K tr (fun m ↦ InPast (Service.events tr) m n) key := by
  obtain ⟨hcurrent, hstamps⟩ := watchful_of_run run hnone
  obtain ⟨hcurrent', hstamps'⟩ := grounded_of_run run
  refine ⟨fun i ↦ (hcurrent i).named_iff (hcurrent' i), fun n hn ↦ ?_⟩
  have hstamp := List.getElem?_eq_getElem (Service.length_stamps_of_run run ▸ hn)
  exact (hstamps n _ hstamp).named_iff (hstamps' n _ hstamp)

/-- Alice's first block at one node and another one at the other, which then hears of the first. -/
def twoSides : List (Event Bool Request) :=
  [.perform false (.addBlock Reference.openAlice), .perform true (.addBlock reopenAlice),
    .receive true (some 0)]

/-- The conflict that the second node comes across in the last of three events. -/
def conflictHeard : List (Entry Bool) → Option NonceConflict
  | [_, _, (.receive true _, .conflicts [c])] => some c
  | _ => none

theorem conflictHeard_eq_some {tr : List (Entry Bool)} {c : NonceConflict}
    (h : conflictHeard tr = some c) :
    ∃ first second source, tr = [first, second, (.receive true source, .conflicts [c])] := by
  unfold conflictHeard at h
  split at h
  · obtain rfl := Option.some_inj.mp h
    exact ⟨_, _, _, rfl⟩
  · cases h

theorem named_iff_disputed_twoSides : ∃ tr s key,
    (mesh Reference.crates (fun _ ↦ "node") (fun _ ↦ 2) fun _ : Bool ↦ 2).system.Run tr s ∧
      Disputed Reference.crates tr (Service.Knows tr true) key := by
  obtain ⟨tr, s, run, hcheck⟩ := Service.exists_run
    (mesh Reference.crates (fun _ ↦ "node") (fun _ ↦ 2) fun _ : Bool ↦ 2) twoSides
    (fun tr s ↦ s.stamps.all (fun node ↦ node.nonceRegistryDropped = 0) &&
      (conflictHeard tr).isSome) (by decide +kernel)
  obtain ⟨hnone, hlast⟩ := Bool.and_eq_true_iff.mp hcheck
  obtain ⟨c, hc⟩ := Option.isSome_iff_exists.mp hlast
  obtain ⟨first, second, source, rfl⟩ := conflictHeard_eq_some hc
  refine ⟨_, s, c.key, run, ((named_iff_disputed run (fun node hnode ↦ ?_) c.key).1 true).mp ?_⟩
  · exact of_decide_eq_true (List.all_eq_true.mp hnone node hnode)
  · exact ⟨2, _, ⟨2, _, Nat.lt_succ_self 2, rfl, rfl, .refl⟩, rfl, c, List.mem_cons_self, rfl⟩

/-- **Nodes that know of the same offers** differ in disputed keys only, and the check before L1
finality counts nothing else. -/
theorem checkSync_of_same_offers (run : (mesh K nodeId a b).system.Run tr s)
    (hnone : ∀ node ∈ s.stamps, node.nonceRegistryDropped = 0) {i j : ι}
    (hsame : ∀ key hash, Offered K tr (Service.Knows tr i) key hash ↔
      Offered K tr (Service.Knows tr j) key hash) :
    (∀ key, ¬ Disputed K tr (Service.Knows tr i) key →
      (s.current i).nonceRegistry.lookup key = (s.current j).nonceRegistry.lookup key) ∧
    (checkSync (s.current j).nonceRegistry (s.current i) = .noNeighbors ↔
      ∀ key hash, ¬ Offered K tr (Service.Knows tr i) key hash) ∧
    ∀ count, checkSync (s.current j).nonceRegistry (s.current i) = .mismatch count →
      0 < count ∧ ∃ keys : Finset NonceKey, keys.card = count ∧
        ∀ key ∈ keys, Disputed K tr (Service.Knows tr i) key := by
  obtain ⟨hcurrent, -⟩ := watchful_of_run run hnone
  obtain ⟨hcurrent', -⟩ := grounded_of_run run
  have hmem : ∀ key, key ∈ (s.current i).nonceRegistry ↔ key ∈ (s.current j).nonceRegistry := by
    intro key
    rw [(hcurrent i).mem_iff (hcurrent' i), (hcurrent j).mem_iff (hcurrent' j)]
    exact exists_congr fun hash ↦ hsame key hash
  -- where the registries differ, each of them has one side of a dispute
  have hdiffer : ∀ key, (s.current i).nonceRegistry.lookup key ≠
      (s.current j).nonceRegistry.lookup key → Disputed K tr (Service.Knows tr i) key := by
    intro key hne
    have hi : key ∈ (s.current i).nonceRegistry := by
      by_contra hnew
      refine hne ?_
      rw [AList.lookup_eq_none.mpr hnew, AList.lookup_eq_none.mpr fun h ↦ hnew ((hmem key).mpr h)]
    obtain ⟨hash, hlookup⟩ := HashMap.exists_lookup hi
    obtain ⟨hash', hlookup'⟩ := HashMap.exists_lookup ((hmem key).mp hi)
    refine ⟨hash, hash', (hcurrent' i).entries key hash hlookup,
      (hsame key hash').mpr ((hcurrent' j).entries key hash' hlookup'), fun heq ↦ hne ?_⟩
    rw [hlookup, hlookup', heq]
  refine ⟨fun key hquiet ↦ not_not.mp (mt (hdiffer key) hquiet), ?_, fun count hcount ↦ ?_⟩
  · rw [checkSync, syncNoncesBeforeL1_eq hmem]
    have hempty : (s.current j).nonceRegistry = ∅ ↔
        ∀ key hash, ¬ Offered K tr (Service.Knows tr i) key hash := by
      rw [HashMap.eq_empty_iff]
      simp only [← hmem, (hcurrent i).mem_iff (hcurrent' i), not_exists]
    rw [← hempty]
    split
    · rename_i hnone
      exact iff_of_true rfl hnone
    · rename_i hsome
      refine iff_of_false ?_ hsome
      split <;> exact SyncResult.noConfusion
  · rw [checkSync, syncNoncesBeforeL1_eq hmem] at hcount
    split at hcount
    · cases hcount
    split at hcount
    · cases hcount
    · rename_i hsome
      obtain rfl := SyncResult.mismatch.inj hcount
      refine ⟨Finset.card_pos.mpr (Finset.nonempty_iff_ne_empty.mpr hsome), _, rfl, ?_⟩
      exact fun key hkey ↦ hdiffer key (mem_conflictingKeys.mp hkey).2.2

/-- One node merges a made-up registry, and the other hears of it. -/
def hearsay (remote : NonceRegistry) (response response' : Response) : List (Entry Bool) :=
  [(.perform false (.mergeRegistry remote), response), (.receive true (some 0), response')]

theorem offered_hearsay {remote : NonceRegistry} {response response' : Response} (i : Bool) :
    Offered K (hearsay remote response response')
      (Service.Knows (hearsay remote response response') i) key hash ↔
        remote.lookup key = some hash := by
  constructor
  · rintro ⟨n, _, request, _, hn, hget, hoffered⟩
    match n, hn.lt with
    | 0, _ =>
      obtain ⟨hevent, -⟩ := Prod.mk.inj (Option.some_inj.mp hget)
      obtain ⟨-, rfl⟩ := Event.perform.inj hevent
      exact hoffered
    | 1, _ => cases (Prod.mk.inj (Option.some_inj.mp hget)).1
  · intro hlookup
    refine ⟨0, false, _, _, ?_, rfl, hlookup⟩
    match i with
    | false => exact ⟨0, _, Nat.zero_lt_two, rfl, rfl, .refl⟩
    | true =>
      exact ⟨1, _, Nat.one_lt_two, rfl, rfl, .single ⟨Nat.zero_lt_one, _, _, rfl, rfl, Or.inr rfl⟩⟩

/-- The registry that is merged, of a trace like this one. -/
def rumoured : List (Entry Bool) → Option NonceRegistry
  | [(.perform false (.mergeRegistry remote), _), (.receive true (some 0), _)] => some remote
  | _ => none

theorem rumoured_eq_some {tr : List (Entry Bool)} {remote : NonceRegistry}
    (h : rumoured tr = some remote) :
    ∃ response response', tr = hearsay remote response response' := by
  unfold rumoured at h
  split at h
  · obtain rfl := Option.some_inj.mp h
    exact ⟨_, _, rfl⟩
  · cases h

theorem checkSync_of_same_offers_hearsay : ∃ tr s,
    (mesh Reference.crates (fun _ ↦ "node") (fun _ ↦ 2) fun _ : Bool ↦ 2).system.Run tr s ∧
      checkSync (s.current true).nonceRegistry (s.current false) ≠ .noNeighbors := by
  obtain ⟨tr, s, run, hcheck⟩ := Service.exists_run
    (mesh Reference.crates (fun _ ↦ "node") (fun _ ↦ 2) fun _ : Bool ↦ 2)
    [.perform false (.mergeRegistry rumour), .receive true (some 0)]
    (fun tr s ↦ s.stamps.all (fun node ↦ node.nonceRegistryDropped = 0) &&
      (rumoured tr).any fun remote ↦ (remote.lookup (Vector.replicate 32 0xaa, 1)).isSome)
    (by decide +kernel)
  obtain ⟨hnone, hshape⟩ := Bool.and_eq_true_iff.mp hcheck
  obtain ⟨remote, hremote, hsome⟩ := (Option.any_eq_true _ _).mp hshape
  obtain ⟨hash, hlookup⟩ := Option.isSome_iff_exists.mp hsome
  obtain ⟨response, response', rfl⟩ := rumoured_eq_some hremote
  obtain ⟨-, hiff, -⟩ := checkSync_of_same_offers run (i := false) (j := true)
    (fun node hnode ↦ of_decide_eq_true (List.all_eq_true.mp hnone node hnode))
    fun key hash ↦ (offered_hearsay false).trans (offered_hearsay true).symm
  exact ⟨_, s, run, fun hresult ↦ hiff.mp hresult _ hash ((offered_hearsay false).mpr hlookup)⟩

end GossipNode

end Arxia
