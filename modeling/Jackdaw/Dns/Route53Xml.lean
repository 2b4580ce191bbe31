import Jackdaw.Support.Xml
import Jackdaw.Dns.Providers

/-!
# Dns — Route 53 documents

`_change_xml` as the text it builds, and what a reader of XML makes of it; and the listing that
`delete_txt` reads.  A `'\r'` in a name or a value is a character a document may have, but it is
written as it is, and a reader takes it for a line end.

* `fromstring_changeXmlText`: the document is one change, whatever the name and the values are.
* `change_xml_faithful_iff`: it is the change that was asked for exactly where there is no `'\r'`.
* `deleteTxt_listing`: what `delete_txt` reads of a listing is what `Route53.deleteTxt` looks up.
-/

namespace Jackdaw

open Support Support.Xml

namespace Route53

/-- `_NS` -/
def ns : String := "https://route53.amazonaws.com/doc/2013-04-01/"

/-- `xml.sax.saxutils.escape` -/
def escape (s : String) : String := String.ofList (Xml.escape s.toList)

def actionText : ChangeAction → String
  | .create => "CREATE"
  | .delete => "DELETE"

/-- The `ResourceRecord` elements. -/
def recordsText (values : List String) : String :=
  String.join (values.map fun v =>
    "<ResourceRecord><Value>" ++ escape v ++ "</Value></ResourceRecord>")

/-- `_change_xml`: the document. -/
def changeXmlText (action : ChangeAction) (name : String) (values : List String) : String :=
  "<?xml version=\"1.0\" encoding=\"UTF-8\"?>" ++
  ("<ChangeResourceRecordSetsRequest xmlns=\"" ++ ns ++ "\">") ++
  "<ChangeBatch><Changes><Change>" ++
  ("<Action>" ++ actionText action ++ "</Action>") ++
  "<ResourceRecordSet>" ++
  ("<Name>" ++ escape name ++ ".</Name>") ++
  "<Type>TXT</Type><TTL>120</TTL>" ++
  ("<ResourceRecords>" ++ recordsText values ++ "</ResourceRecords>") ++
  "</ResourceRecordSet>" ++
  "</Change></Changes></ChangeBatch>" ++
  "</ChangeResourceRecordSetsRequest>"

/-! ### The change as a tree -/

/-- Characters, if there are any. -/
def characters (cs : List Char) : Content :=
  if cs = [] then .nil else .text cs .nil

/-- An element that holds characters. -/
def leaf (tag cs : List Char) (rest : Content) : Content := .element tag [] (characters cs) rest

section Tree

-- `q` is how tags are written: as they are, or in the name space
variable (q : String → List Char)

def recordsTree : List String → Content
  | [] => .nil
  | v :: vs => .element (q "ResourceRecord") [] (leaf (q "Value") v.toList .nil) (recordsTree vs)

/-- One change of one record set. -/
def changeTree (c : Change) : Content :=
  .element (q "ChangeBatch") [] (.element (q "Changes") [] (.element (q "Change") []
    (leaf (q "Action") (actionText c.action).toList (.element (q "ResourceRecordSet") []
      (leaf (q "Name") c.name.toList (leaf (q "Type") "TXT".toList (leaf (q "TTL") c.set.ttl.toList
        (.element (q "ResourceRecords") [] (recordsTree q c.set.values) .nil)))) .nil)) .nil) .nil) .nil

end Tree

/-- A tag in Route 53's name space. -/
def tag (name : String) : List Char := qualify ns.toList name.toList

/-- The element of a change, as it is written. -/
def requestWritten (c : Change) : Element :=
  ⟨"ChangeResourceRecordSetsRequest".toList, [(xmlns, ns.toList)], changeTree String.toList c⟩

/-- The element of a change, as it is read. -/
def request (c : Change) : Element :=
  ⟨tag "ChangeResourceRecordSetsRequest", [], changeTree tag c⟩

/-! ### What is read -/

/-- `rrs.findall(".//ResourceRecord/Value")`, their texts. -/
def recordValues (set : Content) : List String :=
  ((set.descendants (tag "ResourceRecord")).flatMap fun r => r.children (tag "Value")).map fun v =>
    String.ofList v.leading

def readAction (cs : List Char) : Option ChangeAction :=
  if cs = "CREATE".toList then some .create
  else if cs = "DELETE".toList then some .delete
  else none

/-- A change of one TXT record set. -/
def readChange (c : Content) : Option Change :=
  (readAction (c.findtext (tag "Action"))).bind fun action =>
    match c.children (tag "ResourceRecordSet") with
    | [set] =>
        if set.findtext (tag "Type") = "TXT".toList then
          some ⟨action, String.ofList (set.findtext (tag "Name")),
            ⟨String.ofList (set.findtext (tag "TTL")), recordValues set⟩⟩
        else none
    | _ => none

/-- The changes in a request. -/
def readRequest (e : Element) : Option (List Change) :=
  (e.inner.descendants (tag "Change")).mapM readChange

/-- The name and the values of the first record set of a listing. -/
def readListing (listing : Element) : Option (String × List String) :=
  (listing.inner.descendants (tag "ResourceRecordSet")).head?.map fun rrs =>
    (String.ofList (rrs.findtext (tag "Name")), recordValues rrs)

/-- The values `delete_txt` asks to delete; `none` where the listing has another name. -/
def listedValues (lower : String → String) (listing : Element) (name : String) :
    Option (List String) :=
  (readListing listing).bind fun rrs =>
    if lower (Text.rstripChar rrs.1 '.') ≠ lower name then none else some rrs.2

/-! ### The document is the tree -/

section Written

variable {q : String → List Char} {cs : List Char} {c : Change} {values : List String}

theorem render_leaf (t : List Char) (rest : Content) :
    (leaf t cs rest).render = startTag t [] ++ Xml.escape cs ++ endTag t ++ rest.render := by
  rw [leaf, characters]
  split
  · next h => rw [h]; rfl
  · rw [Content.render, Content.render, Content.render, List.append_nil]

theorem render_recordsTree :
    (recordsTree String.toList values).render = (recordsText values).toList := by
  rw [recordsText, String.toList_join]
  induction values with
  | nil => rfl
  | cons v vs ih =>
      rw [recordsTree, Content.render, render_leaf, ih]
      simp [escape, startTag, endTag, String.toList_append, Content.render]

/-- The start tag of the document element. -/
theorem root_toList (uri rest : List Char) :
    "<ChangeResourceRecordSetsRequest xmlns=\"".toList ++ (uri ++ ("\">".toList ++ rest)) =
      startTag "ChangeResourceRecordSetsRequest".toList [(xmlns, uri)] ++ rest := by
  have hopen : "<ChangeResourceRecordSetsRequest xmlns=\"".toList =
      '<' :: ("ChangeResourceRecordSetsRequest".toList ++ ' ' :: (xmlns ++ ['=', '"'])) := by rfl
  have hclose : "\">".toList = ['"', '>'] := by rfl
  rw [hopen, hclose]
  simp only [startTag, renderAttr, List.flatMap_cons, List.flatMap_nil, List.cons_append,
    List.append_assoc, List.nil_append, List.append_nil]

/-- The tags in front of the action. -/
theorem change_toList : "<ChangeBatch><Changes><Change>".toList = startTag "ChangeBatch".toList [] ++
    (startTag "Changes".toList [] ++ startTag "Change".toList []) := by rfl

/-- The elements that are the same in every change. -/
theorem type_toList : "<Type>TXT</Type><TTL>120</TTL>".toList = startTag "Type".toList [] ++
    (Xml.escape "TXT".toList ++ (endTag "Type".toList ++ (startTag "TTL".toList [] ++
      (Xml.escape "120".toList ++ endTag "TTL".toList)))) := by rfl

/-- The end tags of the document. -/
theorem end_toList : "</ResourceRecordSet>".toList ++ ("</Change></Changes></ChangeBatch>".toList ++
    "</ChangeResourceRecordSetsRequest>".toList) = endTag "ResourceRecordSet".toList ++
      (endTag "Change".toList ++ (endTag "Changes".toList ++ (endTag "ChangeBatch".toList ++
        endTag "ChangeResourceRecordSetsRequest".toList))) := by rfl

/-- **The text is the tree.** -/
theorem changeXmlText_toList (action : ChangeAction) (name : String) (values : List String) :
    (changeXmlText action name values).toList =
      (requestWritten (changeXml action name values)).document := by
  have haction : Xml.escape (actionText action).toList = (actionText action).toList := by
    cases action with
    | create => rfl
    | delete => rfl
  have haction₁ : "<Action>".toList = startTag "Action".toList [] := by rfl
  have haction₂ : "</Action>".toList = endTag "Action".toList := by rfl
  have hset : "<ResourceRecordSet>".toList = startTag "ResourceRecordSet".toList [] := by rfl
  have hname₁ : "<Name>".toList = startTag "Name".toList [] := by rfl
  have hname₂ : ".</Name>".toList = Xml.escape ".".toList ++ endTag "Name".toList := by rfl
  have hrecords₁ : "<ResourceRecords>".toList = startTag "ResourceRecords".toList [] := by rfl
  have hrecords₂ : "</ResourceRecords>".toList = endTag "ResourceRecords".toList := by rfl
  delta changeXmlText requestWritten
  simp only [String.toList_append, List.append_assoc, changeXml, Element.document, Element.content,
    changeTree, Content.render, render_leaf, render_recordsTree, escape_append, haction, escape,
    String.toList_ofList, List.append_nil]
  rw [root_toList, change_toList, haction₁, haction₂, hset, hname₁, hname₂, type_toList,
    hrecords₁, hrecords₂, end_toList]
  simp only [List.append_assoc]
  rfl

end Written

/-! ### What a reader makes of it -/

section Read

variable {q : String → List Char} {c : Change} {values : List String} {s : String}

/-- Line ends, as a reader takes them. -/
def lines (s : String) : String := String.ofList (normalize s.toList)

/-- The change a reader sees. -/
def seen (c : Change) : Change :=
  ⟨c.action, lines c.name, ⟨lines c.set.ttl, c.set.values.map lines⟩⟩

def LegalText (s : String) : Prop := ∀ c ∈ s.toList, isChar c = true

theorem legalText_of_all (h : s.toList.all isChar = true) : LegalText s := List.all_eq_true.mp h

theorem lines_eq_self_iff : lines s = s ↔ '\r' ∉ s.toList := by
  rw [lines, ← normalize_eq_self_iff]
  constructor
  · intro h
    have hlist := congrArg String.toList h
    rwa [String.toList_ofList] at hlist
  · intro h
    rw [h, String.ofList_toList]

theorem characters_normalized (cs : List Char) :
    (characters cs).normalized = characters (normalize cs) := by
  by_cases h : cs = []
  · rw [h]
    rfl
  · rw [characters, characters, if_neg h, if_neg (normalize_ne_nil h)]
    rfl

theorem recordsTree_normalized :
    (recordsTree q values).normalized = recordsTree q (values.map lines) := by
  induction values with
  | nil => rfl
  | cons v vs ih =>
      simp only [recordsTree, leaf, List.map_cons, Content.normalized, characters_normalized, ih, lines,
        String.toList_ofList]

theorem changeTree_normalized : (changeTree q c).normalized = changeTree q (seen c) := by
  have haction : normalize (actionText c.action).toList = (actionText c.action).toList := by
    cases c.action with
    | create => rfl
    | delete => rfl
  have htype : normalize "TXT".toList = "TXT".toList := rfl
  simp only [changeTree, leaf, Content.normalized, characters_normalized, recordsTree_normalized, seen,
    lines, String.toList_ofList, haction, htype]

theorem wellFormed_leaf {t cs : List Char} {rest : Content} (ht : isName t = true)
    (hcs : ∀ c ∈ cs, isChar c = true) (hrest : rest.WellFormed) : (leaf t cs rest).WellFormed := by
  refine ⟨ht, ⟨List.nodup_nil, List.forall_mem_nil _⟩, ?_, hrest⟩
  rw [characters]
  split
  · trivial
  · next hne => exact ⟨hne, hcs, trivial, trivial⟩

theorem wellFormed_bare {t : List Char} {inner rest : Content} (ht : isName t = true)
    (hinner : inner.WellFormed) (hrest : rest.WellFormed) :
    (Content.element t [] inner rest).WellFormed :=
  ⟨ht, ⟨List.nodup_nil, List.forall_mem_nil _⟩, hinner, hrest⟩

theorem wellFormed_recordsTree (h : ∀ v ∈ values, LegalText v) :
    (recordsTree String.toList values).WellFormed := by
  induction values with
  | nil => trivial
  | cons v vs ih =>
      exact wellFormed_bare (by rfl)
        (wellFormed_leaf (by rfl) (h v List.mem_cons_self) trivial)
        (ih fun w hw => h w (List.mem_cons_of_mem _ hw))

/-- The element of a change can be written. -/
theorem wellFormed_requestWritten (hname : LegalText c.name) (httl : LegalText c.set.ttl)
    (hvalues : ∀ v ∈ c.set.values, LegalText v) : (requestWritten c).content.WellFormed := by
  have haction : LegalText (actionText c.action) := by
    cases c.action with
    | create => exact legalText_of_all rfl
    | delete => exact legalText_of_all rfl
  have hnil : Content.nil.WellFormed := trivial
  have hset : (Content.element "ResourceRecords".toList [] (recordsTree String.toList c.set.values)
      .nil).WellFormed := wellFormed_bare (by rfl) (wellFormed_recordsTree hvalues) hnil
  have hleaves := wellFormed_leaf (t := "Name".toList) (by rfl) hname
    (wellFormed_leaf (t := "Type".toList) (by rfl) (legalText_of_all (s := "TXT") rfl)
      (wellFormed_leaf (t := "TTL".toList) (by rfl) httl hset))
  have hchange := wellFormed_leaf (t := "Action".toList) (by rfl) haction
    (wellFormed_bare (t := "ResourceRecordSet".toList) (by rfl) hleaves hnil)
  have hroot : AttrsOk [(xmlns, ns.toList)] := by
    refine ⟨List.nodup_singleton _, fun a ha => ?_⟩
    rw [List.mem_singleton.mp ha]
    exact ⟨rfl, rfl⟩
  exact ⟨by rfl, hroot, wellFormed_bare (by rfl) (wellFormed_bare (by rfl)
    (wellFormed_bare (by rfl) hchange hnil) hnil) hnil, hnil⟩

theorem characters_resolve (uri cs : List Char) :
    (characters cs).resolve uri = characters cs := by
  rw [characters]
  split
  · rfl
  · rfl

theorem recordsTree_resolve :
    (recordsTree String.toList values).resolve ns.toList = recordsTree tag values := by
  induction values with
  | nil => rfl
  | cons v vs ih =>
      simp only [recordsTree, leaf, Content.resolve, nameSpace, List.lookup_nil, Option.getD_none,
        List.filter_nil, characters_resolve, ih, tag]

theorem requestWritten_resolve : (requestWritten c).resolve = request c := by
  have hspace : nameSpace [] [(xmlns, ns.toList)] = ns.toList := by rfl
  have hattrs : [(xmlns, ns.toList)].filter (·.1 ≠ xmlns) = [] := by
    rw [List.filter_cons_of_neg (by simp), List.filter_nil]
  have hbare : nameSpace ns.toList [] = ns.toList := by rfl
  delta requestWritten request
  simp only [Element.resolve, hspace, hattrs, changeTree, leaf, Content.resolve, hbare, List.filter_nil,
    characters_resolve, recordsTree_resolve, tag]

/-- **The document is one change**, whatever the name and the values are. -/
theorem fromstring_changeXmlText (action : ChangeAction) {name : String} (hname : LegalText name)
    (hvalues : ∀ v ∈ values, LegalText v) :
    fromstring (changeXmlText action name values).toList =
      some (request (seen (changeXml action name values))) := by
  have hfull : LegalText (name ++ ".") := by
    intro x hx
    rw [String.toList_append] at hx
    rcases List.mem_append.mp hx with hx | hx
    · exact hname x hx
    · rw [List.mem_singleton.mp hx]
      rfl
  have hwf : (requestWritten (changeXml action name values)).content.WellFormed :=
    wellFormed_requestWritten hfull (legalText_of_all (s := "120") rfl) hvalues
  have hnormalized : (requestWritten (changeXml action name values)).normalized =
      requestWritten (seen (changeXml action name values)) :=
    congrArg (Element.mk _ _) changeTree_normalized
  rw [fromstring, changeXmlText_toList, parse_document hwf, hnormalized, Option.map_some,
    requestWritten_resolve]

/-! ### What is read is what was asked for -/

theorem tag_inj {a b : String} : tag a = tag b ↔ a = b := by
  have hne : ns.toList ≠ [] := by rw [ne_eq, String.toList_eq_nil_iff]; decide
  rw [tag, tag, qualify, qualify, if_neg hne, if_neg hne]
  simp [String.toList_inj]

@[simp] theorem descendants_characters (t cs : List Char) : (characters cs).descendants t = [] := by
  rw [characters]
  split
  · rfl
  · rfl

@[simp] theorem leading_characters (cs : List Char) : (characters cs).leading = cs := by
  rw [characters]
  split
  · next h => exact h.symm
  · rfl

theorem descendants_recordsTree :
    (recordsTree tag values).descendants (tag "ResourceRecord") =
      values.map fun v => leaf (tag "Value") v.toList .nil := by
  induction values with
  | nil => rfl
  | cons v vs ih =>
      rw [recordsTree, Content.descendants, if_pos rfl, ih]
      simp [leaf, Content.descendants, tag_inj]

theorem no_change_in_recordsTree : (recordsTree tag values).descendants (tag "Change") = [] := by
  induction values with
  | nil => rfl
  | cons v vs ih => simp [recordsTree, leaf, Content.descendants, tag_inj, ih]

theorem readAction_actionText (action : ChangeAction) :
    readAction (actionText action).toList = some action := by
  cases action with
  | create => rfl
  | delete => rfl

theorem children_value (v : List Char) :
    (leaf (tag "Value") v .nil).children (tag "Value") = [characters v] := by
  rw [leaf, Content.children, if_pos rfl]
  rfl

/-- The values of a record set are read in order. -/
theorem recordValues_tree (values : List String) (cs cs' cs'' : List Char) :
    recordValues (leaf (tag "Name") cs (leaf (tag "Type") cs' (leaf (tag "TTL") cs''
      (.element (tag "ResourceRecords") [] (recordsTree tag values) .nil)))) = values := by
  have hrecords : (leaf (tag "Name") cs (leaf (tag "Type") cs' (leaf (tag "TTL") cs''
      (.element (tag "ResourceRecords") [] (recordsTree tag values) .nil)))).descendants
        (tag "ResourceRecord") = values.map fun v => leaf (tag "Value") v.toList .nil := by
    rw [← descendants_recordsTree]
    simp [leaf, Content.descendants, tag_inj]
  rw [recordValues, hrecords, List.flatMap_map]
  simp only [children_value]
  rw [← List.map_eq_flatMap, List.map_map]
  simp [Function.comp_def]

/-- A change is read as it is. -/
theorem readChange_tree (c : Change) :
    readChange (leaf (tag "Action") (actionText c.action).toList (.element (tag "ResourceRecordSet") []
      (leaf (tag "Name") c.name.toList (leaf (tag "Type") "TXT".toList (leaf (tag "TTL") c.set.ttl.toList
        (.element (tag "ResourceRecords") [] (recordsTree tag c.set.values) .nil)))) .nil)) = some c := by
  have hvalues := recordValues_tree c.set.values
  simp only [leaf] at hvalues
  simp [readChange, Content.findtext, Content.children, leaf, tag_inj, hvalues,
    readAction_actionText c.action]

/-- **A request is read as its one change.** -/
theorem readRequest_request (c : Change) : readRequest (request c) = some [c] := by
  have hread := readChange_tree c
  have hchanges : (request c).inner.descendants (tag "Change") = [leaf (tag "Action")
      (actionText c.action).toList (.element (tag "ResourceRecordSet") [] (leaf (tag "Name")
        c.name.toList (leaf (tag "Type") "TXT".toList (leaf (tag "TTL") c.set.ttl.toList
          (.element (tag "ResourceRecords") [] (recordsTree tag c.set.values) .nil)))) .nil)] := by
    simp [request, changeTree, Content.descendants, leaf, tag_inj, no_change_in_recordsTree]
  rw [readRequest, hchanges, List.mapM_cons, hread]
  rfl

theorem request_injective {c c' : Change} (h : request c = request c') : c = c' := by
  have hread := readRequest_request c
  rw [h, readRequest_request] at hread
  exact ((List.cons.inj (Option.some.inj hread)).1).symm

/-! ### The listing -/

/-- What `delete_txt` re-sends may stand in a document. -/
theorem legal_listedValues {lower : String → String} {listing : Element} {name : String}
    (hlegal : listing.inner.Legal) (h : listedValues lower listing name = some values) :
    ∀ v ∈ values, LegalText v := by
  obtain ⟨⟨rrsetName, vs⟩, hread, h⟩ := Option.bind_eq_some_iff.mp h
  obtain rfl : vs = values := by
    split at h
    · cases h
    · exact Option.some.inj h
  obtain ⟨rrs, hhead, hrrs⟩ := Option.map_eq_some_iff.mp hread
  obtain ⟨-, rfl⟩ := Prod.mk.inj hrrs
  have hset := hlegal.descendants (List.mem_of_head? hhead)
  intro v hv
  obtain ⟨value, hvalue, rfl⟩ := List.mem_map.mp hv
  obtain ⟨record, hrecord, hvalue⟩ := List.mem_flatMap.mp hvalue
  rw [LegalText, String.toList_ofList]
  exact ((hset.descendants hrecord).children hvalue).leading

/-- **What `delete_txt` reads of a listing** is what `Route53.deleteTxt` looks up, where the listing
is the one of the zone. -/
theorem deleteTxt_listing {z : HostedZone} {listing : Element} {name : String}
    (h : readListing listing = (z.listFrom name).map fun rrs => (rrs.1, rrs.2.values)) :
    Route53.deleteTxt z name = match listedValues Jackdaw.lower listing name with
      | none => .ok z
      | some values => z.change (changeXml .delete name values) := by
  rw [Route53.deleteTxt, listedValues, h]
  cases z.listFrom name with
  | none => rfl
  | some rrs =>
      simp only [Option.map_some, Option.bind_some]
      split
      · rfl
      · rfl

theorem seen_changeXml (action : ChangeAction) (name : String) (values : List String) :
    seen (changeXml action name values) =
      ⟨action, lines (name ++ "."), ⟨"120", values.map lines⟩⟩ := by
  have httl : lines "120" = "120" := lines_eq_self_iff.mpr (by decide)
  rw [seen, changeXml, httl]

/-- It is the change that was asked for where no line end is normalised. -/
theorem seen_eq_iff {action : ChangeAction} {name : String} :
    seen (changeXml action name values) = changeXml action name values ↔
      '\r' ∉ name.toList ∧ ∀ v ∈ values, '\r' ∉ v.toList := by
  have hname : lines (name ++ ".") = name ++ "." ↔ '\r' ∉ name.toList := by
    rw [lines_eq_self_iff, String.toList_append, List.mem_append]
    simp
  have hvalues : values.map lines = values ↔ ∀ v ∈ values, '\r' ∉ v.toList := by
    conv_lhs => rhs; rw [← List.map_id values]
    rw [List.map_inj_left]
    exact forall₂_congr fun v _ => lines_eq_self_iff
  rw [seen_changeXml, ← hname, ← hvalues, changeXml]
  simp

/-- **The document is the change that was asked for exactly where there is no `'\r'`.** -/
theorem fromstring_eq_iff (action : ChangeAction) {name : String} (hname : LegalText name)
    (hvalues : ∀ v ∈ values, LegalText v) :
    fromstring (changeXmlText action name values).toList =
        some (request (changeXml action name values)) ↔
      '\r' ∉ name.toList ∧ ∀ v ∈ values, '\r' ∉ v.toList := by
  rw [fromstring_changeXmlText action hname hvalues, ← seen_eq_iff, Option.some_inj]
  exact ⟨request_injective, congrArg request⟩

end Read

/-- **Route 53 documents are faithful but for `'\r'`.**  For every action, name and values the
document is read as one change of one record set, with the line ends of name and values normalised;
that is the change asked for exactly where they have no `'\r'`, and so it is with the values that
`delete_txt` reads of a listing. -/
theorem change_xml_faithful_iff {name : String} (hname : LegalText name) :
    (∀ c, readRequest (request c) = some [c]) ∧
    (∀ action values, (∀ v ∈ values, LegalText v) →
      fromstring (changeXmlText action name values).toList =
        some (request ⟨action, lines (name ++ "."), ⟨"120", values.map lines⟩⟩) ∧
      (fromstring (changeXmlText action name values).toList =
          some (request ⟨action, name ++ ".", ⟨"120", values⟩⟩) ↔
        '\r' ∉ name.toList ∧ ∀ v ∈ values, '\r' ∉ v.toList)) ∧
    ∀ (lower : String → String) (listing : Element) (listed : List String),
      listing.inner.Legal → listedValues lower listing name = some listed →
      (fromstring (changeXmlText .delete name listed).toList =
          some (request ⟨.delete, name ++ ".", ⟨"120", listed⟩⟩) ↔
        '\r' ∉ name.toList ∧ ∀ v ∈ listed, '\r' ∉ v.toList) := by
  refine ⟨readRequest_request, fun action values hvalues => ⟨?_, ?_⟩, ?_⟩
  · rw [← seen_changeXml]
    exact fromstring_changeXmlText action hname hvalues
  · exact fromstring_eq_iff action hname hvalues
  · intro lower listing listed hlegal hlisted
    exact fromstring_eq_iff .delete hname (legal_listedValues hlegal hlisted)

namespace Demo

/-- A listing with one value, `"a&b"` in quotes. -/
def listing : String :=
  "<r xmlns=\"https://route53.amazonaws.com/doc/2013-04-01/\"><ResourceRecordSet>" ++
  "<Name>_acme-challenge.example.com.</Name><ResourceRecord><Value>\"a&amp;b\"</Value>" ++
  "</ResourceRecord></ResourceRecordSet></r>"

end Demo

/-- Metacharacters, an entity and tags arrive as they are, and what a listing has is sent again. -/
theorem metacharacters_arrive :
    fromstring (changeXmlText .create "_acme-challenge.example.com"
        ["\"a&amp;b</Value><Value>]]>\"", ""]).toList =
      some (request ⟨.create, "_acme-challenge.example.com.",
        ⟨"120", ["\"a&amp;b</Value><Value>]]>\"", ""]⟩⟩) ∧
    ∃ listing, fromstring Demo.listing.toList = some listing ∧
      listedValues id listing "_acme-challenge.example.com" = some ["\"a&b\""] ∧
      fromstring (changeXmlText .delete "_acme-challenge.example.com" ["\"a&b\""]).toList =
        some (request ⟨.delete, "_acme-challenge.example.com.", ⟨"120", ["\"a&b\""]⟩⟩) := by
  have hname : LegalText "_acme-challenge.example.com" := legalText_of_all (by decide)
  have hvalues : ∀ v ∈ ["\"a&amp;b</Value><Value>]]>\"", ""], LegalText v := by
    intro v hv
    rcases List.mem_pair.mp hv with rfl | rfl
    · exact legalText_of_all (by decide)
    · exact legalText_of_all (by decide)
  have hread : (fromstring Demo.listing.toList).bind
      (fun l => listedValues id l "_acme-challenge.example.com") = some ["\"a&b\""] := by
    decide +kernel
  obtain ⟨-, hsent, hlisted⟩ := change_xml_faithful_iff hname
  obtain ⟨listing, hlisting, hvalue⟩ := Option.bind_eq_some_iff.mp hread
  refine ⟨(hsent .create _ hvalues).2.mpr ⟨by decide, ?_⟩, listing, hlisting, hvalue,
    (hlisted id listing _ (fromstring_legal hlisting) hvalue).mpr ⟨by decide, ?_⟩⟩
  · intro v hv
    rcases List.mem_pair.mp hv with rfl | rfl
    · decide
    · decide
  · intro v hv
    rw [List.mem_singleton.mp hv]
    decide

/-- A `'\r'` in the name does not. -/
theorem carriage_return_lost :
    LegalText "_acme-challenge.a\rb.example.com" ∧ LegalText "\"v\"" ∧
    fromstring (changeXmlText .create "_acme-challenge.a\rb.example.com" ["\"v\""]).toList ≠
      some (request ⟨.create, "_acme-challenge.a\rb.example.com" ++ ".", ⟨"120", ["\"v\""]⟩⟩) := by
  have hname : LegalText "_acme-challenge.a\rb.example.com" := legalText_of_all (by decide)
  have hvalue : LegalText "\"v\"" := legalText_of_all (by decide)
  refine ⟨hname, hvalue, fun h => ?_⟩
  have hno := ((fromstring_eq_iff .create hname fun v hv => by
    rw [List.mem_singleton.mp hv]; exact hvalue).mp h).1
  exact hno (by decide)

end Route53

end Jackdaw
