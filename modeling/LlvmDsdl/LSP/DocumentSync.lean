import LlvmDsdl.LSP.IndexStorage
import LlvmDsdl.LSP.Server

/-!
Contract: the texts of open documents after any sequence of notifications.

Owns: reading the parameters of `textDocument/didOpen`, `didChange` and `didClose`
(`LSP/Server.cpp`), what a client says with them, and when the document store holds
the text the client has.
-/

namespace LlvmDsdl.LSP

def JsonValue.getAsObject : JsonValue → Option (List (String × JsonValue))
  | .object fields => some fields
  | _ => none

def JsonValue.getAsArray : JsonValue → Option (List JsonValue)
  | .array values => some values
  | _ => none

def JsonValue.getString (fields : List (String × JsonValue)) (key : String) : Option String :=
  match JsonValue.field fields key with
  | some (.string value) => some value
  | _ => none

/-- The fields of the text document the parameters name. -/
def textDocumentOf (params : Option JsonValue) : Option (List (String × JsonValue)) :=
  (params.bind JsonValue.getAsObject).bind fun paramsObject =>
    (JsonValue.field paramsObject "textDocument").bind JsonValue.getAsObject

def parseTextDocumentUri (params : Option JsonValue) : Option String :=
  (textDocumentOf params).bind (JsonValue.getString · "uri")

def parseDidOpenText (params : Option JsonValue) : Option String :=
  (textDocumentOf params).bind (JsonValue.getString · "text")

def parseDidChangeText (params : Option JsonValue) : Option String :=
  (params.bind JsonValue.getAsObject).bind fun paramsObject =>
    ((JsonValue.field paramsObject "contentChanges").bind JsonValue.getAsArray).bind
      fun changes =>
        (changes.head?.bind JsonValue.getAsObject).bind (JsonValue.getString · "text")

/-- The notification a message on the wire is, where its parameters are complete. -/
def documentNotification (method : String) (params : Option JsonValue) : Option Notification :=
  if method = "textDocument/didOpen" then
    (parseTextDocumentUri params).bind fun uri =>
      (parseDidOpenText params).map fun text => .didOpen uri text
  else if method = "textDocument/didChange" then
    (parseTextDocumentUri params).bind fun uri =>
      (parseDidChangeText params).map fun text => .didChange uri text
  else if method = "textDocument/didClose" then
    (parseTextDocumentUri params).map fun uri => .didClose uri
  else none

/-- A method and its parameters. -/
abbrev WireMessage := String × Option JsonValue

def notifyDocuments (store : DocumentStore) : Notification → DocumentStore
  | .didOpen uri text => store.openDocument uri text
  | .didChange uri text => store.applyFullTextChange uri text
  | .didClose uri => store.close uri
  | .didChangeConfiguration _ => store

def handleDocumentMessage (store : DocumentStore) (message : WireMessage) : DocumentStore :=
  match documentNotification message.1 message.2 with
  | none => store
  | some notification => notifyDocuments store notification

def documentsAfter (messages : List WireMessage) : DocumentStore :=
  messages.foldl handleDocumentMessage ∅

/-- A notification as the client means it; a change carries full texts, applied in order. -/
inductive DocumentMessage where
  | opened (uri text : String)
  | changed (uri first : String) (others : List String)
  | closed (uri : String)

def DocumentMessage.uri : DocumentMessage → String
  | opened uri _ => uri
  | changed uri _ _ => uri
  | closed uri => uri

def NamesDocument (params : Option JsonValue) (uri : String) : Prop :=
  ∃ document, textDocumentOf params = some document ∧ JsonValue.getString document "uri" = some uri

/-- The message on the wire says what the client means, whatever other fields it has. -/
def Spells : DocumentMessage → WireMessage → Prop
  | .opened uri text, message =>
      message.1 = "textDocument/didOpen" ∧
        ∃ document, textDocumentOf message.2 = some document ∧
          JsonValue.getString document "uri" = some uri ∧
          JsonValue.getString document "text" = some text
  | .changed uri first others, message =>
      message.1 = "textDocument/didChange" ∧ NamesDocument message.2 uri ∧
        ∃ params changes, message.2.bind JsonValue.getAsObject = some params ∧
          JsonValue.field params "contentChanges" = some (.array changes) ∧
          List.Forall₂ (fun text change => ∃ fields, change = .object fields ∧
            JsonValue.getString fields "text" = some text) (first :: others) changes
  | .closed uri, message =>
      message.1 = "textDocument/didClose" ∧ NamesDocument message.2 uri

/-- The text the client has for each document after a message. -/
def sayText (texts : String → Option String) : DocumentMessage → String → Option String
  | .opened uri text => Function.update texts uri (some text)
  | .changed uri first others =>
      Function.update texts uri
        ((texts uri).map fun text => (first :: others).foldl (fun _ change => change) text)
  | .closed uri => Function.update texts uri none

/-- The text of each document after every message, applied in order. -/
def textAfter (messages : List DocumentMessage) : String → Option String :=
  messages.foldl sayText fun _ => none

/-- The store holds the client's text after every message, a closed document holds
nothing, and a message leaves every other document alone. -/
structure Synchronised (messages : List DocumentMessage) (wires : List WireMessage) : Prop where
  texts : ∀ count uri,
    (documentsAfter (wires.take count)).lookup uri = textAfter (messages.take count) uri
  closed : ∀ count uri, messages[count]? = some (.closed uri) →
    (documentsAfter (wires.take (count + 1))).lookup uri = none
  others : ∀ count message uri, messages[count]? = some message → uri ≠ message.uri →
    (documentsAfter (wires.take (count + 1))).lookup uri =
      (documentsAfter (wires.take count)).lookup uri

def FirstIsLast : DocumentMessage → Prop
  | .changed _ first others => (first :: others).getLast? = some first
  | _ => True

theorem documentNotification_opened {uri text : String} {wire : WireMessage}
    (spelled : Spells (.opened uri text) wire) :
    documentNotification wire.1 wire.2 = some (.didOpen uri text) := by
  obtain ⟨method, document, isDocument, isUri, isText⟩ := spelled
  rw [documentNotification, if_pos method, parseTextDocumentUri, parseDidOpenText, isDocument]
  simp [isUri, isText]

theorem documentNotification_changed {uri first : String} {others : List String}
    {wire : WireMessage} (spelled : Spells (.changed uri first others) wire) :
    documentNotification wire.1 wire.2 = some (.didChange uri first) := by
  obtain ⟨method, ⟨document, isDocument, isUri⟩, params, changes, isParams, isChanges, texts⟩ :=
    spelled
  have read : parseDidChangeText wire.2 = some first := by
    cases texts with
    | cons head _ =>
        obtain ⟨fields, rfl, isText⟩ := head
        rw [parseDidChangeText, isParams]
        simp [isChanges, JsonValue.getAsArray, JsonValue.getAsObject, isText]
  rw [documentNotification, if_neg (by rw [method]; decide), if_pos method, parseTextDocumentUri,
    isDocument, read]
  simp [isUri]

theorem documentNotification_closed {uri : String} {wire : WireMessage}
    (spelled : Spells (.closed uri) wire) :
    documentNotification wire.1 wire.2 = some (.didClose uri) := by
  obtain ⟨method, document, isDocument, isUri⟩ := spelled
  rw [documentNotification, if_neg (by rw [method]; decide), if_neg (by rw [method]; decide),
    if_pos method, parseTextDocumentUri, isDocument]
  simp [isUri]

def storeText (store : DocumentStore) : DocumentMessage → DocumentStore
  | .opened uri text => store.openDocument uri text
  | .changed uri first _ => store.applyFullTextChange uri first
  | .closed uri => store.close uri

theorem handleDocumentMessage_spelled {message : DocumentMessage} {wire : WireMessage}
    (spelled : Spells message wire) (store : DocumentStore) :
    handleDocumentMessage store wire = storeText store message := by
  unfold handleDocumentMessage
  cases message with
  | opened uri text => rw [documentNotification_opened spelled]; rfl
  | changed uri first others => rw [documentNotification_changed spelled]; rfl
  | closed uri => rw [documentNotification_closed spelled]; rfl

theorem foldl_change (text first : String) (others : List String) :
    some ((first :: others).foldl (fun _ change => change) text) =
      (first :: others).getLast? := by
  induction others generalizing text first with
  | nil => rfl
  | cons next others ih =>
      rw [List.getLast?_cons_cons, ← ih first next]
      rfl

theorem lookup_storeText_of_ne (store : DocumentStore) (message : DocumentMessage) {uri : String}
    (away : uri ≠ message.uri) : (storeText store message).lookup uri = store.lookup uri := by
  cases message with
  | opened other text => exact Finmap.lookup_insert_of_ne store away
  | changed other first others =>
      show (store.applyFullTextChange other first).lookup uri = store.lookup uri
      unfold DocumentStore.applyFullTextChange
      split
      · rfl
      · exact Finmap.lookup_insert_of_ne store away
  | closed other => exact Finmap.lookup_erase_ne away

theorem sayText_of_ne (texts : String → Option String) (message : DocumentMessage) {uri : String}
    (away : uri ≠ message.uri) : sayText texts message uri = texts uri := by
  cases message <;> exact Function.update_of_ne away _ _

/-- A message keeps the store and the client together exactly where it closes or opens a
document, changes none that is open, or ends with the text it begins with. -/
theorem storeText_agrees_iff {store : DocumentStore} {texts : String → Option String}
    (agrees : ∀ uri, store.lookup uri = texts uri) (message : DocumentMessage) :
    (∀ uri, (storeText store message).lookup uri = sayText texts message uri) ↔
      (texts message.uri ≠ none → FirstIsLast message) := by
  have own : (∀ uri, (storeText store message).lookup uri = sayText texts message uri) ↔
      (storeText store message).lookup message.uri = sayText texts message message.uri := by
    refine ⟨fun all => all message.uri, fun atOwn uri => ?_⟩
    by_cases same : uri = message.uri
    · rw [same, atOwn]
    · rw [lookup_storeText_of_ne store message same, sayText_of_ne texts message same, agrees]
  rw [own]
  cases message with
  | opened uri text =>
      have stored : (store.openDocument uri text).lookup uri = some text :=
        Finmap.lookup_insert store
      simp [storeText, sayText, FirstIsLast, DocumentMessage.uri, stored]
  | closed uri =>
      have erased : (store.close uri).lookup uri = none := Finmap.lookup_erase uri store
      simp [storeText, sayText, FirstIsLast, DocumentMessage.uri, erased]
  | changed uri first others =>
      have said : sayText texts (.changed uri first others) uri =
          (texts uri).map fun text => (first :: others).foldl (fun _ change => change) text :=
        Function.update_self _ _ _
      show (store.applyFullTextChange uri first).lookup uri =
          sayText texts (.changed uri first others) uri ↔
        (texts uri ≠ none → (first :: others).getLast? = some first)
      unfold DocumentStore.applyFullTextChange
      rw [agrees, said]
      cases isOpen : texts uri with
      | none => simp [agrees, isOpen]
      | some text =>
          have stored : (store.insert uri first).lookup uri = some first :=
            Finmap.lookup_insert store
          dsimp only [Option.map_some]
          rw [stored, foldl_change]
          simp [eq_comm]

theorem lookup_close_own (store : DocumentStore) (uri : String) :
    (storeText store (.closed uri)).lookup uri = none :=
  Finmap.lookup_erase uri store

theorem take_succ_foldl {α β : Type} (f : β → α → β) (start : β) {list : List α} {count : ℕ}
    {item : α} (at_ : list[count]? = some item) :
    (list.take (count + 1)).foldl f start = f ((list.take count).foldl f start) item := by
  rw [List.take_add_one, at_]
  simp

theorem documentsAfter_take_succ {messages : List DocumentMessage} {wires : List WireMessage}
    (spelled : List.Forall₂ Spells messages wires) {count : ℕ} {message : DocumentMessage}
    (at_ : messages[count]? = some message) :
    documentsAfter (wires.take (count + 1)) =
      storeText (documentsAfter (wires.take count)) message := by
  obtain ⟨within, isMessage⟩ := List.getElem?_eq_some_iff.mp at_
  have withinWires : count < wires.length := spelled.length_eq ▸ within
  have pair := spelled.get within withinWires
  have wireAt : wires[count]? = some wires[count] := List.getElem?_eq_getElem withinWires
  simp only [List.get_eq_getElem, isMessage] at pair
  unfold documentsAfter
  rw [take_succ_foldl handleDocumentMessage ∅ wireAt, handleDocumentMessage_spelled pair]

/-- While the changes end with the text they begin with, the store follows the client. -/
theorem documentsAfter_agrees {messages : List DocumentMessage} {wires : List WireMessage}
    (spelled : List.Forall₂ Spells messages wires)
    (kept : ∀ count message, messages[count]? = some message →
      textAfter (messages.take count) message.uri ≠ none → FirstIsLast message) (count : ℕ) :
    ∀ uri, (documentsAfter (wires.take count)).lookup uri =
      textAfter (messages.take count) uri := by
  induction count with
  | zero => exact fun uri => Finmap.lookup_empty uri
  | succ count ih =>
      cases at_ : messages[count]? with
      | none =>
          have short : messages.length ≤ count := List.getElem?_eq_none_iff.mp at_
          have shortWires : wires.length ≤ count := spelled.length_eq ▸ short
          rw [List.take_of_length_le (by omega), List.take_of_length_le (by omega)]
          rwa [List.take_of_length_le short, List.take_of_length_le shortWires]
            at ih
      | some message =>
          rw [documentsAfter_take_succ spelled at_, textAfter,
            take_succ_foldl sayText (fun _ => none) at_]
          exact (storeText_agrees_iff ih message).mpr (kept count message at_)

/-- The store follows the client through a run exactly where every change of an open
document ends with the text it begins with. -/
theorem synchronised_iff {messages : List DocumentMessage} {wires : List WireMessage}
    (spelled : List.Forall₂ Spells messages wires) :
    Synchronised messages wires ↔
      ∀ count message, messages[count]? = some message →
        textAfter (messages.take count) message.uri ≠ none → FirstIsLast message := by
  constructor
  · intro synchronised count message at_
    have before := synchronised.texts count
    have after := synchronised.texts (count + 1)
    rw [documentsAfter_take_succ spelled at_, textAfter,
      take_succ_foldl sayText (fun _ => none) at_] at after
    exact (storeText_agrees_iff before message).mp after
  · intro kept
    refine ⟨documentsAfter_agrees spelled kept, fun count uri at_ => ?_,
      fun count message uri at_ away => ?_⟩
    · rw [documentsAfter_take_succ spelled at_, lookup_close_own]
    · rw [documentsAfter_take_succ spelled at_, lookup_storeText_of_ne _ message away]

def openedWire : WireMessage :=
  ("textDocument/didOpen", some (.object
    [("textDocument", .object [("uri", .string "file:///a.dsdl"), ("text", .string "old")])]))

def changedWire (texts : List String) : WireMessage :=
  ("textDocument/didChange", some (.object
    [("textDocument", .object [("uri", .string "file:///a.dsdl")]),
      ("contentChanges", .array (texts.map fun text => .object [("text", .string text)]))]))

theorem spells_opened : Spells (.opened "file:///a.dsdl" "old") openedWire :=
  ⟨rfl, _, rfl, rfl, rfl⟩

theorem spells_changed (first : String) (others : List String) :
    Spells (.changed "file:///a.dsdl" first others) (changedWire (first :: others)) := by
  refine ⟨rfl, ⟨_, rfl, rfl⟩, _, _, rfl, rfl, ?_⟩
  rw [List.forall₂_map_right_iff]
  exact List.forall₂_same.mpr fun text _ => ⟨_, rfl, rfl⟩

theorem synchronised_iff_single :
    Synchronised [.opened "file:///a.dsdl" "old", .changed "file:///a.dsdl" "new" []]
      [openedWire, changedWire ["new"]] := by
  refine (synchronised_iff (.cons spells_opened (.cons (spells_changed "new" []) .nil))).mpr ?_
  rintro (_ | _ | count) message at_ _
  · cases at_
    trivial
  · cases at_
    rfl
  · cases at_

/-- Of two changes in one notification the store keeps the first. -/
theorem later_change_dropped :
    List.Forall₂ Spells
        [.opened "file:///a.dsdl" "old", .changed "file:///a.dsdl" "first" ["last"]]
        [openedWire, changedWire ["first", "last"]] ∧
      (documentsAfter [openedWire, changedWire ["first", "last"]]).lookup "file:///a.dsdl" =
        some "first" ∧
      textAfter [.opened "file:///a.dsdl" "old", .changed "file:///a.dsdl" "first" ["last"]]
        "file:///a.dsdl" = some "last" := by
  refine ⟨.cons spells_opened (.cons (spells_changed "first" ["last"]) .nil), ?_, ?_⟩
  · decide +kernel
  · simp [textAfter, sayText]

end LlvmDsdl.LSP
