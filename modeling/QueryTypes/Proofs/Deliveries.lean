import QueryTypes.Proofs.DefaultOperations
import QueryTypes.Request

namespace QueryTypes

namespace Store

variable {store after : Store} {path contents : String} {place : Place}

structure Admits (store : Store) (path : String) (place : Place) : Prop where
  found : store.find path = some place
  named : (pathParts path).getLast?.any isFileName = true
  free : store.node? place ≠ some .directory

theorem persist_eq_some :
    store.persist path contents = some after ↔
      ∃ place, store.Admits path place ∧ after = store.put place (.text contents) := by
  unfold persist
  rw [Option.bind_eq_bind, Option.bind_eq_some_iff]
  constructor
  · rintro ⟨place, found, done⟩
    split at done
    · rename_i allowed
      rw [Bool.and_eq_true, bne_iff_ne] at allowed
      exact ⟨place, ⟨found, allowed.1, allowed.2⟩, (Option.some.inj done).symm⟩
    · cases done
  · rintro ⟨place, admits, rfl⟩
    refine ⟨place, admits.found, if_pos ?_⟩
    rw [Bool.and_eq_true, bne_iff_ne]
    exact ⟨admits.named, admits.free⟩

theorem persist_eq_none : store.persist path contents = none ↔ ∀ place, ¬store.Admits path place := by
  rw [Option.eq_none_iff_forall_ne_some]
  constructor
  · intro none place admits
    exact none _ (persist_eq_some.mpr ⟨place, admits, rfl⟩)
  · intro none after done
    obtain ⟨place, admits, _⟩ := persist_eq_some.mp done
    exact none place admits

theorem Admits.ne_nil (admits : store.Admits path place) : place ≠ [] := by
  rintro rfl
  exact admits.free rfl

section Directories

variable (same : ∀ place, after.node? place = some .directory ↔ store.node? place = some .directory)

include same

theorem step_congr (here : Place) (part : String) : after.step here part = store.step here part := by
  unfold step
  simp only [same]

theorem find_congr (path : String) : after.find path = store.find path := by
  have steps : after.step = store.step := funext fun here => funext fun part => step_congr same here part
  unfold find walk
  rw [steps]

theorem admits_congr : after.Admits path place ↔ store.Admits path place := by
  constructor
  · rintro ⟨found, named, free⟩
    exact ⟨by rwa [find_congr same] at found, named, fun is => free ((same place).mpr is)⟩
  · rintro ⟨found, named, free⟩
    exact ⟨by rwa [find_congr same], named, fun is => free ((same place).mp is)⟩

end Directories

theorem Admits.directories (admits : store.Admits path place) (contents : String) (other : Place) :
    (store.put place (.text contents)).node? other = some .directory ↔ store.node? other = some .directory := by
  rw [node?_put store place other _ admits.ne_nil]
  by_cases same : other = place
  · subst same
    simp [admits.free]
  · rw [if_neg same]

theorem read_of_node? (found : store.find path = some place) (node : store.node? place = some (.text contents)) :
    store.read path = some contents := by
  simp [read, found, node]

end Store

namespace Delivery

def nodeAfter (store : Store) (place : Place) (node : Option Node) : Delivery → Option Node
  | file path contents => if store.find path = some place then some (.text contents) else node
  | console _ => node

def said : Delivery → String
  | file .. => ""
  | console text => text

/-- Every file has a place, the last one to a place counts, and directories stay. -/
structure Leads (world : World) (deliveries : List Delivery) (after : World) : Prop where
  admitted : ∀ path contents, file path contents ∈ deliveries → ∃ place, world.store.Admits path place
  nodes : ∀ place, after.store.node? place =
    deliveries.foldl (nodeAfter world.store place) (world.store.node? place)
  console : after.console = deliveries.foldl (fun text delivery => text ++ delivery.said) world.console
  directories : ∀ place, after.store.node? place = some .directory ↔ world.store.node? place = some .directory

variable {world after final : World} {delivery : Delivery} {deliveries rest : List Delivery} {fault : Error}

theorem leads_nil (world : World) : Leads world [] world where
  admitted _ _ member := absurd member List.not_mem_nil
  nodes _ := rfl
  console := rfl
  directories _ := Iff.rfl

theorem leads_perform (done : delivery.perform world = .ok after) : Leads world [delivery] after := by
  cases delivery with
  | console text =>
    cases done
    exact ⟨by simp, fun _ => rfl, rfl, fun _ => Iff.rfl⟩
  | file path contents =>
    rw [perform] at done
    split at done
    · rename_i store persisted
      cases done
      obtain ⟨place, admits, rfl⟩ := Store.persist_eq_some.mp persisted
      refine ⟨?_, ?_, (String.append_empty ..).symm, admits.directories contents⟩
      · intro path contents member
        cases List.mem_singleton.mp member
        exact ⟨place, admits⟩
      intro other
      rw [Store.node?_put _ _ _ _ admits.ne_nil]
      simp only [List.foldl_cons, List.foldl_nil, nodeAfter, admits.found, Option.some.injEq, eq_comm]
    · cases done

theorem Leads.nodeAfter_eq (leads : Leads world deliveries after) (place : Place) :
    nodeAfter after.store place = nodeAfter world.store place := by
  ext node delivery : 2
  cases delivery with
  | console text => rfl
  | file path contents => simp only [nodeAfter, Store.find_congr leads.directories]

theorem Leads.append (first : Leads world deliveries after) (second : Leads after rest final) :
    Leads world (deliveries ++ rest) final where
  admitted path contents member := by
    rcases List.mem_append.mp member with member | member
    · exact first.admitted path contents member
    · obtain ⟨place, admits⟩ := second.admitted path contents member
      exact ⟨place, (Store.admits_congr first.directories).mp admits⟩
  nodes place := by rw [second.nodes, first.nodeAfter_eq, first.nodes, List.foldl_append]
  console := by rw [second.console, first.console, List.foldl_append]
  directories place := (second.directories place).trans (first.directories place)

theorem Leads.read (leads : Leads world deliveries after) {path contents text : String}
    (member : file path contents ∈ deliveries)
    (shown : ∀ place, world.store.find path = some place →
      deliveries.foldl (nodeAfter world.store place) (world.store.node? place) = some (.text text)) :
    after.store.read path = some text := by
  obtain ⟨place, admits⟩ := leads.admitted path contents member
  apply Store.read_of_node?
  · rw [Store.find_congr leads.directories]
    exact admits.found
  · rw [leads.nodes, shown place admits.found]

theorem leads_performAll (done : performAll world deliveries = ⟨.ok (), after⟩) : Leads world deliveries after := by
  induction deliveries generalizing world with
  | nil =>
    cases done
    exact leads_nil _
  | cons delivery rest ih =>
    rw [performAll] at done
    split at done
    · rename_i middle performed
      exact (leads_perform performed).append (ih done)
    · cases done

/-- A failure leaves the world as it is after the deliveries before. -/
theorem exists_failed (failed : performAll world deliveries = ⟨.error fault, after⟩) :
    ∃ before delivery rest, deliveries = before ++ delivery :: rest ∧
      performAll world before = ⟨.ok (), after⟩ ∧ delivery.perform after = .error fault := by
  induction deliveries generalizing world with
  | nil => cases failed
  | cons delivery rest ih =>
    rw [performAll] at failed
    split at failed
    · rename_i middle performed
      obtain ⟨before, last, others, rfl, done, refused⟩ := ih failed
      exact ⟨delivery :: before, last, others, rfl, by rw [performAll, performed]; exact done, refused⟩
    · rename_i refused
      cases failed
      exact ⟨[], delivery, rest, rfl, rfl, refused⟩

theorem exists_path_of_refused (refused : delivery.perform world = .error fault) :
    ∃ path contents, delivery = file path contents ∧ fault = .io ∧ ∀ place, ¬world.store.Admits path place := by
  cases delivery with
  | console text => cases refused
  | file path contents =>
    rw [perform] at refused
    split at refused
    · cases refused
    · rename_i none
      cases refused
      exact ⟨path, contents, rfl, rfl, Store.persist_eq_none.mp none⟩

theorem perform_of_refused {path contents : String} (refused : ∀ place, ¬world.store.Admits path place) :
    (file path contents).perform world = .error .io := by
  rw [perform, Store.persist_eq_none.mpr refused]

end Delivery

def World.reader (world : World) : FileReader := fun path => (world.store.read path).elim (.error .io) .ok

namespace Request

variable {request : Request} {made : Artifacts} {world after : World}

def sourceDelivery (request : Request) (made : Artifacts) : Delivery :=
  match request.output with
  | some path => .file path made.source
  | none => .console (endLine made.source)

def idsDelivery? (request : Request) (made : Artifacts) : Option Delivery :=
  match made.operationIds, request.options.operationIdsPath with
  | some ids, some path => some (.file path ids)
  | _, _ => none

theorem idsDelivery?_eq_some {path ids : String} :
    request.idsDelivery? made = some (.file path ids) ↔
      made.operationIds = some ids ∧ request.options.operationIdsPath = some path := by
  unfold idsDelivery?
  cases made.operationIds <;> cases request.options.operationIdsPath <;> simp [and_comm]

theorem idsDelivery?_eq_file {delivery : Delivery} (found : request.idsDelivery? made = some delivery) :
    ∃ path ids, delivery = .file path ids ∧ made.operationIds = some ids ∧
      request.options.operationIdsPath = some path := by
  unfold idsDelivery? at found
  split at found
  · cases found
    exact ⟨_, _, rfl, ‹_›, ‹_›⟩
  · cases found

theorem deliveries_eq (request : Request) (made : Artifacts) :
    request.deliveries made = request.sourceDelivery made :: (request.idsDelivery? made).toList := by
  unfold deliveries sourceDelivery idsDelivery?
  cases made.operationIds <;> cases request.options.operationIdsPath <;> rfl

theorem generate_of_artifacts {read : FileReader} (done : request.artifacts read = .ok made) :
    (request.options.operationIds = true → request.options.operationIdsPath.isSome = true) ∧
      ∃ schema document, Schema.generate schema document request.target request.options = .ok made := by
  unfold artifacts at done
  cases refused : request.options.operationIds && request.options.operationIdsPath.isNone with
  | true =>
    rw [if_pos refused] at done
    cases done
  | false =>
    rw [if_neg (by simp [refused])] at done
    obtain ⟨schema, _, done⟩ := bind_eq_ok.mp done
    refine ⟨fun wanted => by simpa [wanted] using refused, schema, ?_⟩
    by_cases default : request.inputs.isEmpty = true
    · rw [if_pos default] at done
      exact ⟨none, done⟩
    · rw [if_neg default] at done
      obtain ⟨document, _, done⟩ := bind_eq_ok.mp done
      exact ⟨document, done⟩

theorem operationIds_of_artifacts {read : FileReader} (done : request.artifacts read = .ok made) :
    made.operationIds.isSome = request.options.operationIds := by
  obtain ⟨_, schema, document, generated⟩ := generate_of_artifacts done
  rw [Schema.generate_eq] at generated
  obtain ⟨_, _, generated⟩ := bind_eq_ok.mp generated
  obtain ⟨_, _, generated⟩ := bind_eq_ok.mp generated
  obtain ⟨_, _, generated⟩ := bind_eq_ok.mp generated
  obtain ⟨_, _, generated⟩ := bind_eq_ok.mp generated
  obtain ⟨_, _, generated⟩ := bind_eq_ok.mp generated
  cases generated
  cases request.options.operationIds <;> rfl

theorem run_of_staged (done : request.artifacts world.reader = .ok made)
    (staged : (request.deliveries made).all (Delivery.canStage world.store) = true) :
    request.run world = Delivery.performAll world (request.deliveries made) := by
  unfold World.reader at done
  simp only [run, done, staged, ite_true]

/-- Nothing changes before everything is made and prepared. -/
theorem run_cases (request : Request) (world : World) :
    (∃ fault, request.run world = ⟨.error fault, world⟩) ∨
      ∃ made, request.artifacts world.reader = .ok made ∧
        (request.deliveries made).all (Delivery.canStage world.store) = true ∧
        request.run world = Delivery.performAll world (request.deliveries made) := by
  cases done : request.artifacts world.reader with
  | error fault =>
    unfold World.reader at done
    exact .inl ⟨fault, by simp only [run, done]⟩
  | ok made =>
    by_cases staged : (request.deliveries made).all (Delivery.canStage world.store) = true
    · exact .inr ⟨made, rfl, staged, run_of_staged done staged⟩
    · unfold World.reader at done
      exact .inl ⟨.io, by simp only [run, done, if_neg staged]⟩

/-- The source is handed over, and then the operation ids have no place. -/
def Interrupted (request : Request) (world after : World) : Prop :=
  ∃ made ids path, request.artifacts world.reader = .ok made ∧ made.operationIds = some ids ∧
    request.options.operationIdsPath = some path ∧
    (request.deliveries made).all (Delivery.canStage world.store) = true ∧
    (request.sourceDelivery made).perform world = .ok after ∧ ∀ place, ¬world.store.Admits path place

/-- The source and the operation ids are where they should be, and all else is as it was. Ids that have the
    path of the source replace it. -/
structure Delivers (request : Request) (made : Artifacts) (world after : World) : Prop where
  source : ∀ path, request.output = some path →
    (∀ other, made.operationIds.isSome = true → request.options.operationIdsPath = some other →
      world.store.find other ≠ world.store.find path) →
    after.store.read path = some made.source
  console : after.console =
    if request.output.isSome = true then world.console else world.console ++ endLine made.source
  ids : request.options.operationIds = true → ∃ path ids, request.options.operationIdsPath = some path ∧
    made.operationIds = some ids ∧ after.store.read path = some ids
  others : ∀ place, (∀ path, request.output = some path → world.store.find path ≠ some place) →
    (∀ path, made.operationIds.isSome = true → request.options.operationIdsPath = some path →
      world.store.find path ≠ some place) →
    after.store.node? place = world.store.node? place

theorem Interrupted.run_eq (interrupted : request.Interrupted world after) :
    request.run world = ⟨.error .io, after⟩ := by
  obtain ⟨made, ids, path, done, isIds, isPath, staged, performed, refused⟩ := interrupted
  have directories := (Delivery.leads_perform performed).directories
  have refusedAfter : ∀ place, ¬after.store.Admits path place := fun place admits =>
    refused place ((Store.admits_congr directories).mp admits)
  rw [run_of_staged done staged, deliveries_eq, Delivery.performAll, performed]
  simp only [idsDelivery?, isIds, isPath, Option.toList_some, Delivery.performAll,
    Delivery.perform_of_refused refusedAfter]

/-- Of two deliveries only the second one can fail after something has changed. -/
theorem interrupted_of_failed {fault : Error} (done : request.artifacts world.reader = .ok made)
    (staged : (request.deliveries made).all (Delivery.canStage world.store) = true)
    (failed : Delivery.performAll world (request.deliveries made) = ⟨.error fault, after⟩) :
    after = world ∨ request.Interrupted world after := by
  obtain ⟨before, delivery, rest, split, performed, refused⟩ := Delivery.exists_failed failed
  rw [deliveries_eq] at split
  cases before with
  | nil =>
    cases performed
    exact .inl rfl
  | cons first others =>
    right
    obtain ⟨rfl, split⟩ := List.cons.inj split
    have last : request.idsDelivery? made = some delivery ∧ others = [] := by
      cases found : request.idsDelivery? made with
      | none => simp [found] at split
      | some ids =>
        cases others <;> simp_all
    obtain ⟨isIds, rfl⟩ := last
    have leads := Delivery.leads_performAll performed
    obtain ⟨path, contents, rfl, _, none⟩ := Delivery.exists_path_of_refused refused
    obtain ⟨isMade, isPath⟩ := idsDelivery?_eq_some.mp isIds
    refine ⟨made, contents, path, done, isMade, isPath, staged, ?_, ?_⟩
    · rw [Delivery.performAll] at performed
      split at performed
      · rename_i performs
        cases performed
        exact performs
      · cases performed
    · intro place admits
      exact none place ((Store.admits_congr leads.directories).mpr admits)

section Leads

variable (leads : Delivery.Leads world (request.deliveries made) after)

include leads

theorem read_output {path : String} (output : request.output = some path)
    (apart : ∀ other, made.operationIds.isSome = true → request.options.operationIdsPath = some other →
      world.store.find other ≠ world.store.find path) :
    after.store.read path = some made.source := by
  rw [deliveries_eq] at leads
  have isFile : request.sourceDelivery made = .file path made.source := by rw [sourceDelivery, output]
  rw [isFile] at leads
  apply leads.read List.mem_cons_self
  intro place found
  rw [List.foldl_cons, Delivery.nodeAfter, if_pos found]
  cases last : request.idsDelivery? made with
  | none => rfl
  | some delivery =>
    obtain ⟨other, ids, rfl, isMade, isPath⟩ := idsDelivery?_eq_file last
    have elsewhere : world.store.find other ≠ some place := found ▸ apart other (by rw [isMade]; rfl) isPath
    rw [Option.toList_some, List.foldl_cons, Delivery.nodeAfter, if_neg elsewhere]
    rfl

theorem read_idsPath {path ids : String} (isMade : made.operationIds = some ids)
    (isPath : request.options.operationIdsPath = some path) : after.store.read path = some ids := by
  rw [deliveries_eq, idsDelivery?_eq_some.mpr ⟨isMade, isPath⟩] at leads
  apply leads.read (List.mem_cons_of_mem _ List.mem_cons_self)
  intro place found
  rw [Option.toList_some, List.foldl_cons, List.foldl_cons, Delivery.nodeAfter, if_pos found]
  rfl

theorem console_of_leads : after.console =
    if request.output.isSome = true then world.console else world.console ++ endLine made.source := by
  have silent (text : String) :
      (request.idsDelivery? made).toList.foldl (fun text delivery => text ++ delivery.said) text = text := by
    cases last : request.idsDelivery? made with
    | none => rfl
    | some delivery =>
      obtain ⟨path, ids, rfl, _⟩ := idsDelivery?_eq_file last
      exact String.append_empty ..
  rw [leads.console, deliveries_eq, List.foldl_cons, silent, sourceDelivery]
  cases request.output with
  | none => rfl
  | some path => exact String.append_empty ..

theorem node?_of_leads {place : Place}
    (noOutput : ∀ path, request.output = some path → world.store.find path ≠ some place)
    (noIds : ∀ path, made.operationIds.isSome = true → request.options.operationIdsPath = some path →
      world.store.find path ≠ some place) :
    after.store.node? place = world.store.node? place := by
  have source (node : Option Node) :
      Delivery.nodeAfter world.store place node (request.sourceDelivery made) = node := by
    cases output : request.output with
    | none => simp only [sourceDelivery, output, Delivery.nodeAfter]
    | some path => simp only [sourceDelivery, output, Delivery.nodeAfter, if_neg (noOutput path output)]
  rw [leads.nodes, deliveries_eq, List.foldl_cons, source]
  cases last : request.idsDelivery? made with
  | none => rfl
  | some delivery =>
    obtain ⟨path, ids, rfl, isMade, isPath⟩ := idsDelivery?_eq_file last
    rw [Option.toList_some, List.foldl_cons, Delivery.nodeAfter, if_neg (noIds path (by rw [isMade]; rfl) isPath)]
    rfl

end Leads

theorem delivers_of_leads (done : request.artifacts world.reader = .ok made)
    (leads : Delivery.Leads world (request.deliveries made) after) : request.Delivers made world after where
  source _ output apart := read_output leads output apart
  console := console_of_leads leads
  ids wanted := by
    obtain ⟨ids, isMade⟩ := Option.isSome_iff_exists.mp ((operationIds_of_artifacts done).trans wanted)
    obtain ⟨path, isPath⟩ := Option.isSome_iff_exists.mp ((generate_of_artifacts done).1 wanted)
    exact ⟨path, ids, isPath, isMade, read_idsPath leads isMade isPath⟩
  others _ noOutput noIds := node?_of_leads leads noOutput noIds

end Request

namespace Unwritable

def world : World := ⟨⟨[(["s.graphql"], .text Library.text), (["ids"], .directory)]⟩, ""⟩

def request : Request where
  schemas := ["s.graphql"]
  output := some "out"
  options := { operationIds := true, operationIdsPath := some "ids" }

theorem exists_artifacts : ∃ made, request.artifacts world.reader = .ok made := by
  have read : Schema.read (some "s.graphql") (Library.text ++ "\n") = .ok Library.schema := by
    decide +kernel
  have texts : ["s.graphql"].mapM world.reader = .ok [Library.text] := by
    have text : world.reader "s.graphql" = .ok Library.text := by decide +kernel
    rw [List.mapM_cons, text]
    rfl
  have files : Schema.ofFiles world.reader ["s.graphql"] = .ok Library.schema := by
    change (["s.graphql"].mapM world.reader >>= fun texts => Schema.read _ (String.join (texts.map (· ++ "\n")))) = _
    rw [texts, ok_bind, List.map_cons, List.map_nil, String.join_cons, String.join_nil, String.append_empty]
    exact read
  have readable := Schema.readable_of_read read
  obtain ⟨items, _, built⟩ := bind_eq_ok.mp read
  obtain ⟨operations, isDefault, plain, distinct⟩ :=
    Library.schema.exists_defaultDocument built readable Library.sound Library.shallow
  have checked := Schema.validDocument_none isDefault plain distinct .json
  have valid : request.options.validate = .ok () := rfl
  obtain ⟨made, generated⟩ := Schema.exists_artifacts_of_plain plain readable Library.sound.string checked valid
  refine ⟨made, ?_⟩
  change (Schema.ofFiles world.reader ["s.graphql"] >>= fun schema => schema.generate none .json request.options) = _
  rw [files]
  exact generated

theorem admits_output : world.store.Admits "out" ["out"] := ⟨by decide +kernel, by decide +kernel, by decide⟩

theorem not_admits_ids (place : Place) : ¬world.store.Admits "ids" place := by
  intro admits
  have found : world.store.find "ids" = some ["ids"] := by decide +kernel
  cases found.symm.trans admits.found
  exact admits.free (by decide)

theorem exists_interrupted : ∃ after, request.Interrupted world after ∧ after ≠ world := by
  obtain ⟨made, done⟩ := exists_artifacts
  obtain ⟨ids, isMade⟩ := Option.isSome_iff_exists.mp (Request.operationIds_of_artifacts done)
  have persisted : world.store.persist "out" made.source = some (world.store.put ["out"] (.text made.source)) :=
    Store.persist_eq_some.mpr ⟨["out"], admits_output, rfl⟩
  have stages : world.store.canStage "out" = true ∧ world.store.canStage "ids" = true := by decide +kernel
  refine ⟨{ world with store := world.store.put ["out"] (.text made.source) },
    ⟨made, ids, "ids", done, isMade, rfl, ?_, ?_, not_admits_ids⟩, ?_⟩
  · rw [Request.deliveries_eq, Request.idsDelivery?_eq_some.mpr ⟨isMade, rfl⟩]
    simp only [Request.sourceDelivery, request, Option.toList_some, List.all_cons, List.all_nil,
      Delivery.canStage, stages.1, stages.2, Bool.and_self]
  · simp only [Request.sourceDelivery, request, Delivery.perform, persisted]
  · intro same
    have written := Store.node?_put world.store ["out"] ["out"] (.text made.source) (by simp)
    have absent : world.store.node? ["out"] = none := by decide
    have node := congrArg (fun world => world.store.node? ["out"]) same
    rw [if_pos rfl] at written
    cases (written.symm.trans node).trans absent

end Unwritable

/-- A run that fails changes nothing, unless it is interrupted between the source and the operation ids. A run
    that succeeds delivers both and changes nothing else. -/
theorem run_all_or_nothing (request : Request) (world : World) :
    (∀ fault, (request.run world).result = .error fault →
      (request.run world).world = world ∨ request.Interrupted world (request.run world).world) ∧
    (∀ after, request.Interrupted world after → request.run world = ⟨.error .io, after⟩) ∧
    ((request.run world).result = .ok () →
      ∃ made, request.artifacts world.reader = .ok made ∧
        request.Delivers made world (request.run world).world) := by
  refine ⟨?_, fun _ interrupted => interrupted.run_eq, ?_⟩
  · intro fault failed
    rcases request.run_cases world with ⟨found, unchanged⟩ | ⟨made, done, staged, performs⟩
    · rw [unchanged]
      exact .inl rfl
    · rw [performs] at failed ⊢
      exact Request.interrupted_of_failed done staged (by rw [← failed])
  · intro succeeded
    rcases request.run_cases world with ⟨found, unchanged⟩ | ⟨made, done, _, performs⟩
    · rw [unchanged] at succeeded
      cases succeeded
    · rw [performs] at succeeded ⊢
      exact ⟨made, done, Request.delivers_of_leads done (Delivery.leads_performAll (by rw [← succeeded]))⟩

/-- The source is written although the run fails. -/
theorem run_all_or_nothing_unwritable :
    ∃ after, Unwritable.request.run Unwritable.world = ⟨.error .io, after⟩ ∧ after ≠ Unwritable.world := by
  obtain ⟨after, interrupted, changed⟩ := Unwritable.exists_interrupted
  exact ⟨after, (run_all_or_nothing _ _).2.1 after interrupted, changed⟩

end QueryTypes
