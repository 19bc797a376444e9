import Mathlib.Data.List.Basic
import FinBert.Prep.Tokenization

/-!
# The documents of a filing

`__parse_documents` of `filing_parsers.py`: the loop over the document tags of a filing, with the
loop variable `desc_node`, which a document without a type node does not assign.

Results:
1. `parseDocument_typed`, `parseDocument_untyped`: what one turn of the loop does.
2. `parseDocuments_iff`: when the entries are those that the documents give by themselves.
-/

namespace FinBert.DataEngineering

open Prep (Text strip)

/-! ## Trees -/

/-- The contents of a tag: its texts and the tags in it, in order. -/
inductive Contents
  | nil
  | string (text : Text) (rest : Contents)
  | tag (name : String) (contents rest : Contents)
deriving DecidableEq

/-- A tag that was found. -/
structure Tag where
  contents : Contents
  /-- It is in a table of its document. -/
  inTable : Bool

/-- An element of `contents`. -/
inductive Child
  | string (text : Text)
  | tag (name : String) (contents : Contents)
deriving DecidableEq

/-- The exceptions that `__parse_documents` may raise. -/
inductive PyError
  | indexError
  | typeError
  | unboundLocalError
deriving DecidableEq

/-- `find`: the first tag of the name. -/
def Contents.find (name : String) (inTable : Bool) : Contents → Option Tag
  | nil => none
  | .string _ rest => rest.find name inTable
  | .tag other contents rest =>
    if other = name then some ⟨contents, inTable⟩
    else (contents.find name (inTable || other == "table")).or (rest.find name inTable)

/-- `contents[0]`. -/
def Contents.first : Contents → Except PyError Child
  | nil => .error .indexError
  | .string text _ => .ok (.string text)
  | .tag name contents _ => .ok (.tag name contents)

/-- `strip`, which a tag does not have. -/
def Child.strip : Child → Except PyError Text
  | .string text => .ok (Prep.strip text)
  | .tag _ _ => .error .typeError

/-- The contents when every table is decomposed. -/
def Contents.withoutTables : Contents → Contents
  | nil => nil
  | .string text rest => .string text rest.withoutTables
  | .tag name contents rest =>
    if name = "table" then rest.withoutTables
    else .tag name contents.withoutTables rest.withoutTables

/-- `get_text`. -/
def Contents.getText : Contents → Text
  | nil => []
  | .string text rest => text ++ rest.getText
  | .tag _ contents rest => contents.getText ++ rest.getText

/-- `__extract_document_text`. -/
def extractDocumentText (doc : Contents) : Text := doc.withoutTables.getText

/-- A tag when every table of its document is decomposed: with a table, what is in it is cleared. -/
def Tag.withoutTables (node : Tag) : Tag :=
  { node with contents := if node.inTable then .nil else node.contents.withoutTables }

/-! ## The loop -/

/-- An element of `result_documents`. -/
structure Entry where
  is10K : Bool
  type : Text
  sequence : Text
  description : Child
  document : Text
deriving DecidableEq

/-- The types whose documents get no entry. -/
def skippedTypes : List Text :=
  ["XML".toList, "GRAPHIC".toList, "EXCEL".toList, "ZIP".toList]

/-- The variable `desc_node`: not assigned yet, or a node or `None`. -/
abbrev DescNode := Option (Option Tag)

/-- `type_node.find('description')`. -/
def Tag.description (typeNode : Tag) : Option Tag :=
  typeNode.contents.find "description" typeNode.inTable

/-- The branch on `type_node`: `type_text` and `desc_node`. -/
def readType (descNode : DescNode) (doc : Contents) : Except PyError (Text × DescNode) :=
  match doc.find "type" false with
  | some typeNode => do
    let typeText ← (← typeNode.contents.first).strip
    return (typeText, some typeNode.description)
  | none => return ("NA".toList, descNode)

/-- The branch on `seq_node`: without it, the last digits of the time. -/
def readSequence (now : Nat) (doc : Contents) : Except PyError Text :=
  match doc.find "sequence" false with
  | some seqNode => do (← seqNode.contents.first).strip
  | none => return (toString now).toList.rtake 6

/-- The branch on `desc_node`. -/
def readDescription : DescNode → Except PyError Child
  | none => .error .unboundLocalError
  | some none => return .string []
  | some (some descNode) => descNode.contents.first

/-- `desc_node` when the tables of the document are decomposed: it is of this document when the
document has a type node. -/
def descNodeAfter (doc : Contents) (descNode : DescNode) : DescNode :=
  if (doc.find "type" false).isSome then descNode.map (Option.map Tag.withoutTables) else descNode

/-- The dictionary that is appended to `result_documents`. -/
def entryOf (doc : Contents) (typeText seqText : Text) (descText : Child) : Entry :=
  { is10K := "10-K".toList.isPrefixOf typeText
    type := typeText
    sequence := seqText
    description := descText
    document := extractDocumentText doc }

/-- A turn of the loop. -/
def parseDocument (descNode : DescNode) (now : Nat) (doc : Contents) :
    Except PyError (DescNode × Option Entry) := do
  let (typeText, descNode) ← readType descNode doc
  let seqText ← readSequence now doc
  let descText ← readDescription descNode
  if typeText ∈ skippedTypes then return (descNode, none)
  else return (descNodeAfter doc descNode, some (entryOf doc typeText seqText descText))

/-- A document of the filing, and the time in its turn. -/
structure Turn where
  now : Nat
  doc : Contents

/-- The loop, from a value of `desc_node` on. -/
def parseFrom (descNode : DescNode) : List Turn → Except PyError (List Entry)
  | [] => return []
  | turn :: turns => do
    let (descNode, entry) ← parseDocument descNode turn.now turn.doc
    let entries ← parseFrom descNode turns
    return entry.toList ++ entries

/-- `__parse_documents`. -/
def parseDocuments (turns : List Turn) : Except PyError (List Entry) := parseFrom none turns

/-! ## Documents by themselves -/

/-- A node that has content. -/
def HasContent (node : Tag) : Prop := ∃ text rest, node.contents = .string text rest ∧ text ≠ []

/-- The nodes of the document that exist have content. -/
structure NodesHaveContent (doc : Contents) : Prop where
  type : ∀ node, doc.find "type" false = some node → HasContent node
  sequence : ∀ node, doc.find "sequence" false = some node → HasContent node
  description : ∀ node, doc.find "type" false = some node →
    ∀ descNode, node.description = some descNode → HasContent descNode

/-- The description node in the document's own type node. -/
def ownDescription (doc : Contents) : Option Tag :=
  (doc.find "type" false).bind Tag.description

/-- The entry of a document by itself. -/
def ownEntry (turn : Turn) : Except PyError (Option Entry) :=
  return (← parseDocument (some (ownDescription turn.doc)) turn.now turn.doc).2

/-- No exception is raised, and every entry is the one of its document by itself. -/
def Independent (turns : List Turn) : Prop :=
  ∃ entries, turns.mapM ownEntry = .ok entries ∧
    parseDocuments turns = .ok (entries.filterMap id)

/-- The document has a type node. -/
def Typed (doc : Contents) : Prop := (doc.find "type" false).isSome

/-- Every document without a type node comes behind one with it, and the last such document before
it has no description node. -/
def UntypedBehindPlain (docs : List Contents) : Prop :=
  ∀ before doc after, docs = before ++ doc :: after → ¬ Typed doc →
    ∃ earlier typed between, before = earlier ++ typed :: between ∧ Typed typed ∧
      ownDescription typed = none ∧ ∀ other ∈ between, ¬ Typed other

/-! ## One turn -/

/-- What a description node may be in a later turn. -/
def Stale (node : Tag) : Prop := node.contents = .nil ∨ HasContent node

theorem Stale.withoutTables {node : Tag} (h : HasContent node) : Stale node.withoutTables := by
  obtain ⟨text, rest, hcontents, htext⟩ := h
  unfold Stale HasContent Tag.withoutTables
  cases node.inTable with
  | true => exact .inl rfl
  | false => exact .inr ⟨text, rest.withoutTables, by rw [hcontents]; rfl, htext⟩

theorem HasContent.first {node : Tag} (h : HasContent node) :
    ∃ text, text ≠ [] ∧ node.contents.first = .ok (.string text) := by
  obtain ⟨text, rest, hcontents, htext⟩ := h
  exact ⟨text, htext, by rw [hcontents]; rfl⟩

theorem readDescription_stale {node : Tag} (h : Stale node) :
    readDescription (some (some node)) ≠ .ok (.string []) := by
  show node.contents.first ≠ .ok (.string [])
  rcases h with hnil | hcontent
  · rw [hnil]
    intro hnone
    cases hnone
  · obtain ⟨text, htext, hfirst⟩ := hcontent.first
    rw [hfirst]
    intro hempty
    cases hempty
    exact htext rfl

/-- In a document with content, the own description node can be read. -/
theorem readDescription_own {doc : Contents} (hcontent : NodesHaveContent doc) :
    ∃ descText, readDescription (some (ownDescription doc)) = .ok descText := by
  cases hown : ownDescription doc with
  | none => exact ⟨_, rfl⟩
  | some descNode =>
    obtain ⟨node, hnode, hdesc⟩ := Option.bind_eq_some_iff.mp hown
    obtain ⟨text, -, hfirst⟩ := (hcontent.description node hnode descNode hdesc).first
    exact ⟨_, hfirst⟩

theorem readType_typed {doc : Contents} (htyped : Typed doc) (hcontent : NodesHaveContent doc) :
    ∃ typeText, ∀ descNode, readType descNode doc = .ok (typeText, some (ownDescription doc)) := by
  obtain ⟨node, hnode⟩ := Option.isSome_iff_exists.mp htyped
  obtain ⟨text, -, hfirst⟩ := (hcontent.type node hnode).first
  refine ⟨strip text, fun descNode => ?_⟩
  unfold readType ownDescription
  rw [hnode]
  dsimp only
  rw [hfirst]
  rfl

theorem find_of_untyped {doc : Contents} (huntyped : ¬ Typed doc) : doc.find "type" false = none :=
  Option.not_isSome_iff_eq_none.mp huntyped

theorem readType_untyped {doc : Contents} (huntyped : ¬ Typed doc) (descNode : DescNode) :
    readType descNode doc = .ok ("NA".toList, descNode) := by
  unfold readType
  rw [find_of_untyped huntyped]
  rfl

theorem readSequence_ok {doc : Contents} (hcontent : NodesHaveContent doc) (now : Nat) :
    ∃ seqText, readSequence now doc = .ok seqText := by
  unfold readSequence
  cases hnode : doc.find "sequence" false with
  | none => exact ⟨_, rfl⟩
  | some node =>
    obtain ⟨text, -, hfirst⟩ := (hcontent.sequence node hnode).first
    dsimp only
    rw [hfirst]
    exact ⟨_, rfl⟩

/-- `desc_node` may be kept: a node in it is a description node of an earlier document. -/
def Settled (descNode : DescNode) : Prop := ∀ node, descNode = some (some node) → Stale node

theorem settled_own {doc : Contents} (hcontent : NodesHaveContent doc) :
    Settled (some (ownDescription doc)) := by
  intro descNode hown
  obtain ⟨node, hnode, hdesc⟩ := Option.bind_eq_some_iff.mp (Option.some.inj hown)
  exact .inr (hcontent.description node hnode descNode hdesc)

theorem descNodeAfter_typed {doc : Contents} (htyped : Typed doc) (descNode : DescNode) :
    descNodeAfter doc descNode = descNode.map (Option.map Tag.withoutTables) :=
  if_pos htyped

theorem settled_descNodeAfter {doc : Contents} (htyped : Typed doc)
    (hcontent : NodesHaveContent doc) :
    Settled (descNodeAfter doc (some (ownDescription doc))) := by
  intro descNode hafter
  rw [descNodeAfter_typed htyped] at hafter
  obtain ⟨own, hown, rfl⟩ := Option.map_eq_some_iff.mp (Option.some.inj hafter)
  obtain ⟨node, hnode, hdesc⟩ := Option.bind_eq_some_iff.mp hown
  exact .withoutTables (hcontent.description node hnode own hdesc)

theorem descNodeAfter_plain {doc : Contents} (htyped : Typed doc) :
    descNodeAfter doc (some (ownDescription doc)) = some none ↔ ownDescription doc = none := by
  rw [descNodeAfter_typed htyped]
  cases ownDescription doc with
  | none => exact iff_of_true rfl rfl
  | some descNode => exact iff_of_false (by simp) (by simp)

/-- A document with a type node gives its own entry, and `desc_node` becomes its own. -/
theorem parseDocument_typed {doc : Contents} (htyped : Typed doc)
    (hcontent : NodesHaveContent doc) (now : Nat) :
    ∃ after entry, (∀ descNode, parseDocument descNode now doc = .ok (after, entry)) ∧
      Settled after ∧ (after = some none ↔ ownDescription doc = none) := by
  obtain ⟨typeText, htype⟩ := readType_typed htyped hcontent
  obtain ⟨seqText, hseq⟩ := readSequence_ok hcontent now
  obtain ⟨descText, hdesc⟩ := readDescription_own hcontent
  by_cases hskipped : typeText ∈ skippedTypes
  · refine ⟨some (ownDescription doc), none, fun descNode => ?_, settled_own hcontent,
      Option.some_inj⟩
    unfold parseDocument
    rw [htype]
    simp only [bind, Except.bind, hseq, hdesc, if_pos hskipped, pure, Except.pure]
  · refine ⟨_, some (entryOf doc typeText seqText descText), fun descNode => ?_,
      settled_descNodeAfter htyped hcontent,
      descNodeAfter_plain htyped⟩
    unfold parseDocument
    rw [htype]
    simp only [bind, Except.bind, hseq, hdesc, if_neg hskipped, pure, Except.pure]

/-- A document without a type node gives an entry with what `desc_node` is from before. -/
theorem parseDocument_untyped {doc : Contents} (huntyped : ¬ Typed doc)
    (hcontent : NodesHaveContent doc) (now : Nat) :
    ∃ seqText, ∀ descNode, parseDocument descNode now doc =
      (readDescription descNode).map fun descText =>
        (descNode, some (entryOf doc "NA".toList seqText descText)) := by
  obtain ⟨seqText, hseq⟩ := readSequence_ok hcontent now
  refine ⟨seqText, fun descNode => ?_⟩
  have hkept : descNodeAfter doc descNode = descNode := if_neg huntyped
  have hkeeps : "NA".toList ∉ skippedTypes := by decide
  unfold parseDocument
  rw [readType_untyped huntyped]
  simp only [bind, Except.bind, hseq]
  cases readDescription descNode with
  | error err => rfl
  | ok descText => simp only [if_neg hkeeps, hkept, pure, Except.pure, Except.map]

/-! ## All turns -/

/-- The documents are independent of a value of `desc_node` and of each other. -/
def IndependentFrom (descNode : DescNode) (turns : List Turn) : Prop :=
  ∃ entries, turns.mapM ownEntry = .ok entries ∧
    parseFrom descNode turns = .ok (entries.filterMap id)

theorem parseFrom_cons {descNode after : DescNode} {turn : Turn} {entry : Option Entry}
    (hturn : parseDocument descNode turn.now turn.doc = .ok (after, entry)) (turns : List Turn) :
    parseFrom descNode (turn :: turns) = (parseFrom after turns).map (entry.toList ++ ·) := by
  simp only [parseFrom, hturn, bind, Except.bind]
  cases parseFrom after turns with
  | error err => rfl
  | ok entries => rfl

theorem mapM_ownEntry_cons {turn : Turn} {own : Option Entry} (hown : ownEntry turn = .ok own)
    (turns : List Turn) :
    (turn :: turns).mapM ownEntry = (turns.mapM ownEntry).map (own :: ·) := by
  rw [List.mapM_cons, hown]
  cases turns.mapM ownEntry with
  | error err => rfl
  | ok entries => rfl

theorem map_eq_ok {ε α β : Type} {result : Except ε α} {f : α → β} {b : β} :
    result.map f = .ok b ↔ ∃ a, result = .ok a ∧ f a = b := by
  cases result with
  | error err => exact iff_of_false (fun h => by cases h) (fun ⟨_, h, _⟩ => by cases h)
  | ok a =>
    refine ⟨fun h => ⟨a, rfl, Except.ok.inj h⟩, fun ⟨a', h, heq⟩ => ?_⟩
    cases h
    exact congrArg Except.ok heq

theorem independentFrom_cons {descNode after : DescNode} {turn : Turn} {entry own : Option Entry}
    (hturn : parseDocument descNode turn.now turn.doc = .ok (after, entry))
    (hown : ownEntry turn = .ok own) (turns : List Turn) :
    IndependentFrom descNode (turn :: turns) ↔
      ∃ entries rest, turns.mapM ownEntry = .ok entries ∧ parseFrom after turns = .ok rest ∧
        entry.toList ++ rest = own.toList ++ entries.filterMap id := by
  unfold IndependentFrom
  rw [parseFrom_cons hturn, mapM_ownEntry_cons hown]
  have hfilter (entries) : (own :: entries).filterMap id = own.toList ++ entries.filterMap id := by
    cases own <;> rfl
  constructor
  · rintro ⟨_, hmapped, hparsed⟩
    obtain ⟨entries, hentries, rfl⟩ := map_eq_ok.mp hmapped
    obtain ⟨rest, hrest, heq⟩ := map_eq_ok.mp hparsed
    exact ⟨entries, rest, hentries, hrest, heq.trans (hfilter entries)⟩
  · rintro ⟨entries, rest, hentries, hrest, heq⟩
    exact ⟨own :: entries, map_eq_ok.mpr ⟨entries, hentries, rfl⟩,
      map_eq_ok.mpr ⟨rest, hrest, heq.trans (hfilter entries).symm⟩⟩

/-- A document whose entry is its own leaves the question to the documents behind it. -/
theorem independentFrom_cons_own {descNode after : DescNode} {turn : Turn} {own : Option Entry}
    (hturn : parseDocument descNode turn.now turn.doc = .ok (after, own))
    (hown : ownEntry turn = .ok own) (turns : List Turn) :
    IndependentFrom descNode (turn :: turns) ↔ IndependentFrom after turns := by
  rw [independentFrom_cons hturn hown]
  constructor
  · rintro ⟨entries, rest, hentries, hrest, heq⟩
    exact ⟨entries, hentries, List.append_cancel_left heq ▸ hrest⟩
  · rintro ⟨entries, hentries, hrest⟩
    exact ⟨entries, _, hentries, hrest, rfl⟩

theorem independentFrom_typed {turn : Turn} (htyped : Typed turn.doc)
    (hcontent : NodesHaveContent turn.doc) (descNode : DescNode) (turns : List Turn) :
    ∃ after, Settled after ∧ (after = some none ↔ ownDescription turn.doc = none) ∧
      (IndependentFrom descNode (turn :: turns) ↔ IndependentFrom after turns) := by
  obtain ⟨after, entry, hturn, hsettled, hplain⟩ := parseDocument_typed htyped hcontent turn.now
  refine ⟨after, hsettled, hplain, independentFrom_cons_own (hturn descNode) ?_ turns⟩
  unfold ownEntry
  rw [hturn]
  rfl

theorem ownDescription_untyped {doc : Contents} (huntyped : ¬ Typed doc) :
    ownDescription doc = none := by
  unfold ownDescription
  rw [find_of_untyped huntyped]
  rfl

theorem independentFrom_untyped {turn : Turn} (huntyped : ¬ Typed turn.doc)
    (hcontent : NodesHaveContent turn.doc) {descNode : DescNode} (hsettled : Settled descNode)
    (turns : List Turn) :
    IndependentFrom descNode (turn :: turns) ↔
      descNode = some none ∧ IndependentFrom descNode turns := by
  obtain ⟨seqText, hturn⟩ := parseDocument_untyped huntyped hcontent turn.now
  have hown : ownEntry turn =
      .ok (some (entryOf turn.doc "NA".toList seqText (.string []))) := by
    unfold ownEntry
    rw [ownDescription_untyped huntyped, hturn]
    rfl
  cases descNode with
  | none =>
    -- `desc_node` is read before it is assigned
    refine iff_of_false (fun ⟨_, _, hparse⟩ => ?_) (fun h => by cases h.1)
    rw [parseFrom, hturn] at hparse
    cases hparse
  | some node =>
    cases node with
    | none =>
      exact (independentFrom_cons_own (hturn (some none)) hown turns).trans (and_iff_right rfl).symm
    | some node =>
      refine iff_of_false (fun hindep => ?_) (fun h => by cases h.1)
      -- the description is not empty, or its node was cleared
      have hstale := readDescription_stale (hsettled node rfl)
      cases hdesc : readDescription (some (some node)) with
      | error err =>
        obtain ⟨_, _, hparse⟩ := hindep
        rw [parseFrom, hturn, hdesc] at hparse
        cases hparse
      | ok descText =>
        have hgives := hturn (some (some node))
        rw [hdesc] at hgives
        obtain ⟨_, _, _, _, heq⟩ := (independentFrom_cons hgives hown turns).mp hindep
        have hsame := congrArg Entry.description (List.cons.inj heq).1
        exact hstale (hdesc.trans (congrArg Except.ok hsame))

/-- Every document without a type node finds `desc_node` without a node, when it has no node first
as `plain` says. -/
def Clean (plain : Prop) : List Contents → Prop
  | [] => True
  | doc :: docs =>
    (Typed doc ∧ Clean (ownDescription doc = none) docs) ∨ (¬ Typed doc ∧ plain ∧ Clean plain docs)

theorem clean_typed {doc : Contents} (htyped : Typed doc) (plain : Prop) (docs : List Contents) :
    Clean plain (doc :: docs) ↔ Clean (ownDescription doc = none) docs :=
  ⟨fun h => h.elim And.right fun h => absurd htyped h.1, fun h => .inl ⟨htyped, h⟩⟩

theorem clean_untyped {doc : Contents} (huntyped : ¬ Typed doc) (plain : Prop)
    (docs : List Contents) : Clean plain (doc :: docs) ↔ plain ∧ Clean plain docs :=
  ⟨fun h => h.elim (fun h => absurd h.1 huntyped) And.right, fun h => .inr ⟨huntyped, h⟩⟩

theorem independentFrom_iff_clean (turns : List Turn) {descNode : DescNode}
    (hsettled : Settled descNode) (hcontent : ∀ turn ∈ turns, NodesHaveContent turn.doc) :
    IndependentFrom descNode turns ↔ Clean (descNode = some none) (turns.map Turn.doc) := by
  induction turns generalizing descNode with
  | nil => exact iff_of_true ⟨[], rfl, rfl⟩ trivial
  | cons turn turns ih =>
    rw [List.forall_mem_cons] at hcontent
    rw [List.map_cons]
    by_cases htyped : Typed turn.doc
    · obtain ⟨after, hafter, hplain, hstep⟩ :=
        independentFrom_typed htyped hcontent.1 descNode turns
      rw [hstep, ih hafter hcontent.2, clean_typed htyped, hplain]
    · rw [independentFrom_untyped htyped hcontent.1 hsettled, ih hsettled hcontent.2,
        clean_untyped htyped]

/-- A document without a type node comes behind one with it and without a description, or behind
documents without type nodes only, with no node in `desc_node` first. -/
def Covered (plain : Prop) (before : List Contents) : Prop :=
  (∃ earlier typed between, before = earlier ++ typed :: between ∧ Typed typed ∧
    ownDescription typed = none ∧ ∀ other ∈ between, ¬ Typed other) ∨
  (plain ∧ ∀ other ∈ before, ¬ Typed other)

theorem covered_nil {plain : Prop} : Covered plain [] ↔ plain := by
  constructor
  · rintro (⟨earlier, typed, between, hbefore, -⟩ | ⟨hplain, -⟩)
    · exact absurd hbefore.symm (List.append_ne_nil_of_right_ne_nil _ (List.cons_ne_nil _ _))
    · exact hplain
  · exact fun hplain => .inr ⟨hplain, fun _ hmem => absurd hmem List.not_mem_nil⟩

theorem covered_typed {doc : Contents} (htyped : Typed doc) {plain : Prop}
    {before : List Contents} :
    Covered plain (doc :: before) ↔ Covered (ownDescription doc = none) before := by
  constructor
  · rintro (⟨earlier, typed, between, hbefore, hlast⟩ | ⟨-, huntyped⟩)
    · cases earlier with
      | nil =>
        obtain ⟨rfl, rfl⟩ := List.cons.inj hbefore
        exact .inr hlast.2
      | cons first earlier =>
        exact .inl ⟨earlier, typed, between, (List.cons.inj hbefore).2, hlast⟩
    · exact absurd htyped (huntyped doc List.mem_cons_self)
  · rintro (⟨earlier, typed, between, rfl, hlast⟩ | ⟨hplain, huntyped⟩)
    · exact .inl ⟨doc :: earlier, typed, between, rfl, hlast⟩
    · exact .inl ⟨[], doc, before, rfl, htyped, hplain, huntyped⟩

theorem covered_untyped {doc : Contents} (huntyped : ¬ Typed doc) {plain : Prop}
    {before : List Contents} : Covered plain (doc :: before) ↔ Covered plain before := by
  constructor
  · rintro (⟨earlier, typed, between, hbefore, hlast⟩ | ⟨hplain, hall⟩)
    · cases earlier with
      | nil =>
        obtain ⟨rfl, -⟩ := List.cons.inj hbefore
        exact absurd hlast.1 huntyped
      | cons first earlier =>
        exact .inl ⟨earlier, typed, between, (List.cons.inj hbefore).2, hlast⟩
    · exact .inr ⟨hplain, (List.forall_mem_cons.mp hall).2⟩
  · rintro (⟨earlier, typed, between, rfl, hlast⟩ | ⟨hplain, hall⟩)
    · exact .inl ⟨doc :: earlier, typed, between, rfl, hlast⟩
    · exact .inr ⟨hplain, List.forall_mem_cons.mpr ⟨huntyped, hall⟩⟩

/-- A statement on every place of a list with a head is one on the head and on the places behind. -/
theorem forall_split_cons {α : Type} {P : List α → α → Prop} {x : α} {xs : List α} :
    (∀ before y after, x :: xs = before ++ y :: after → P before y) ↔
      P [] x ∧ ∀ before y after, xs = before ++ y :: after → P (x :: before) y := by
  constructor
  · intro h
    exact ⟨h [] x xs rfl, fun before y after hxs => h (x :: before) y after (hxs ▸ rfl)⟩
  · rintro ⟨hhead, htail⟩ before y after hxs
    cases before with
    | nil =>
      obtain ⟨rfl, -⟩ := List.cons.inj hxs
      exact hhead
    | cons z before =>
      obtain ⟨rfl, hrest⟩ := List.cons.inj hxs
      exact htail before y after hrest

theorem clean_iff_covered (docs : List Contents) (plain : Prop) :
    Clean plain docs ↔
      ∀ before doc after, docs = before ++ doc :: after → ¬ Typed doc → Covered plain before := by
  induction docs generalizing plain with
  | nil =>
    refine iff_of_true trivial fun before doc after hdocs => ?_
    exact absurd hdocs.symm (List.append_ne_nil_of_right_ne_nil _ (List.cons_ne_nil _ _))
  | cons doc docs ih =>
    rw [forall_split_cons]
    by_cases htyped : Typed doc
    · rw [clean_typed htyped, ih, and_iff_right fun h => absurd htyped h]
      simp only [covered_typed htyped]
    · rw [clean_untyped htyped, ih]
      simp only [covered_untyped htyped, covered_nil, forall_const, htyped, not_false_eq_true]

theorem covered_false {before : List Contents} :
    Covered False before ↔ ∃ earlier typed between, before = earlier ++ typed :: between ∧
      Typed typed ∧ ownDescription typed = none ∧ ∀ other ∈ between, ¬ Typed other :=
  or_iff_left fun h => h.1

/-- The entries are those of the documents by themselves exactly when no document without a type
node is the first one or reads the description of an earlier one. -/
theorem parseDocuments_iff (turns : List Turn)
    (hcontent : ∀ turn ∈ turns, NodesHaveContent turn.doc) :
    Independent turns ↔ UntypedBehindPlain (turns.map Turn.doc) := by
  have hunset : Settled none := fun node h => by cases h
  have hclean := (independentFrom_iff_clean turns hunset hcontent).trans
    (clean_iff_covered (turns.map Turn.doc) _)
  refine hclean.trans ?_
  unfold UntypedBehindPlain
  simp only [reduceCtorEq, covered_false]

/-- A tag with a text. -/
def textTag (name text : String) (rest : Contents) : Contents :=
  .tag name (.string text.toList .nil) rest

/-- A document with a type node, with and without a description. -/
def annualReport (description : Contents) : Contents :=
  .tag "type" (.string "10-K\n".toList (textTag "sequence" "1\n" description)) .nil

/-- A document without a type node. -/
def notes : Contents := textTag "sequence" "2\n" (textTag "text" "Notes" .nil)

theorem notes_content : NodesHaveContent notes where
  type := by rintro node ⟨⟩
  sequence := by rintro node ⟨⟩; exact ⟨_, _, rfl, by decide⟩
  description := by rintro node ⟨⟩

theorem annualReport_content :
    NodesHaveContent (annualReport .nil) ∧
      NodesHaveContent (annualReport (textTag "description" "FORM 10-K" .nil)) := by
  refine ⟨⟨?_, ?_, ?_⟩, ⟨?_, ?_, ?_⟩⟩
  · rintro node ⟨⟩; exact ⟨_, _, rfl, by decide⟩
  · rintro node ⟨⟩; exact ⟨_, _, rfl, by decide⟩
  · rintro node ⟨⟩ descNode ⟨⟩
  · rintro node ⟨⟩; exact ⟨_, _, rfl, by decide⟩
  · rintro node ⟨⟩; exact ⟨_, _, rfl, by decide⟩
  · rintro node ⟨⟩ descNode ⟨⟩; exact ⟨_, _, rfl, by decide⟩

/-- The annual report with a description, and the notes behind it. -/
def reportAndNotes (description : Contents) : List Turn :=
  [⟨0, annualReport description⟩, ⟨0, notes⟩]

theorem reportAndNotes_independent :
    Independent (reportAndNotes .nil) ↔
      UntypedBehindPlain ((reportAndNotes .nil).map Turn.doc) :=
  parseDocuments_iff (reportAndNotes .nil) (by
    rintro turn (- | ⟨-, (- | ⟨-, ⟨⟩⟩)⟩)
    · exact annualReport_content.1
    · exact notes_content)

/-- The notes get the description of the annual report, and by themselves they raise. -/
theorem not_independent :
    (∀ turn ∈ reportAndNotes (textTag "description" "FORM 10-K" .nil),
        NodesHaveContent turn.doc) ∧
      ¬ Independent (reportAndNotes (textTag "description" "FORM 10-K" .nil)) ∧
      parseDocuments [⟨0, notes⟩] = .error .unboundLocalError := by
  refine ⟨?_, ?_, by decide⟩
  · rintro turn (- | ⟨-, (- | ⟨-, ⟨⟩⟩)⟩)
    · exact annualReport_content.2
    · exact notes_content
  · rintro ⟨entries, hown, hparse⟩
    have hparsed :
        (parseDocuments (reportAndNotes (textTag "description" "FORM 10-K" .nil))).map
          (List.map Entry.description) =
        .ok [.string "FORM 10-K".toList, .string "FORM 10-K".toList] := by decide
    have hbyThemselves :
        ((reportAndNotes (textTag "description" "FORM 10-K" .nil)).mapM ownEntry).map
          (fun entries => (entries.filterMap id).map Entry.description) =
        .ok [.string "FORM 10-K".toList, .string []] := by decide
    rw [hparse] at hparsed
    rw [hown] at hbyThemselves
    exact absurd (hparsed.symm.trans hbyThemselves) (by decide)

end FinBert.DataEngineering
