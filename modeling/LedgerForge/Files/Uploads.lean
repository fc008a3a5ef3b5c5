import LedgerForge.Files.Accounting
import LedgerForge.Library.Results

/-! # Uploads

An upload is a CSV file, which is imported by workers, or a JSON array, which is decoded and stored element by element. It
is reported as successful if no error has been returned.
-/

namespace LedgerForge.Files

open CsvImport Except
open Reconciliation (ExternalTransaction)

structure CsvUpload where
  headers : Except String (List String)
  rows : List (Except String (List String))
  texts : TextReaders
  source : String
  workerCount : ℕ
  storeFails : Bool
  cancellable : Bool
  workers_pos : 0 < workerCount

def processCSV (u : CsvUpload) : Except String CsvImport :=
  match u.headers with
  | .error err => .error ("error reading CSV headers: " ++ err)
  | .ok headers => do
    let columnMap ← createColumnMap u.texts headers
    return ⟨u.rows,u.texts,columnMap,u.source,u.workerCount,u.storeFails,u.cancellable,u.workers_pos⟩

/-- Why the decoder finds no more elements. -/
inductive ArrayEnd
  | bracket
  | brace
  /-- The end of the file, or an error while reading it. -/
  | input
deriving DecidableEq

/-- A file as the decoder of the standard library reads it: whether the first token opens an array, and what decoding the
elements returns as long as there are more of them. -/
structure JsonContent where
  opening : Except String Bool
  elements : List (Except String ExternalTransaction)
  ending : ArrayEnd

section

variable (source : String) (store contextErr : ℕ → Option String)

/-- The count, the error and what has been stored, if the call for the `i`-th element fails with `store i` and the context
has the error `contextErr i` after `i` elements. -/
def storeElements : List (Except String ExternalTransaction) → ℕ → ℕ × Option String × List ExternalTransaction
  | [],total => (total,none,[])
  | .error err :: _,total => (total,some err,[])
  | .ok txn :: rest,total =>
    match store total with
    | some err => (total,some err,[])
    | none =>
      match if (total+1)%contextCheckInterval = 0 then contextErr (total+1) else none with
      | some err => (total+1,some err,[{ txn with source := source }])
      | none =>
        let (count,err,stored) := storeElements rest (total+1)
        (count,err,{ txn with source := source } :: stored)

def processJSON (content : JsonContent) : ℕ × Option String × List ExternalTransaction :=
  match content.opening with
  | .error err => (0,some err,[])
  | .ok false => (0,some "expected a JSON array of transactions",[])
  | .ok true => storeElements source store contextErr content.elements 0

variable {source store contextErr}

theorem storeElements_ok {elements : List (Except String ExternalTransaction)} {total count : ℕ} {stored : List ExternalTransaction}
    (h : storeElements source store contextErr elements total = (count,none,stored)) :
    stored.map ok = elements.map (·.map ({ · with source := source })) ∧ count = total+elements.length := by
  induction elements generalizing total stored with
  | nil =>
    cases h
    exact ⟨rfl,rfl⟩
  | cons element rest ih =>
    cases element with
    | error err => cases h
    | ok txn =>
      simp only [storeElements] at h
      split at h
      · cases h
      split at h
      · cases h
      generalize hrest : storeElements source store contextErr rest (total+1) = result at h
      obtain ⟨count',err,stored'⟩ := result
      cases h
      obtain ⟨hstored,rfl⟩ := ih hrest
      refine ⟨?_,by rw [List.length_cons]; omega⟩
      rw [List.map_cons,hstored]
      rfl

theorem exists_storeElements (source : String) {elements : List (Except String ExternalTransaction)} (h : ∀ element ∈ elements, element.isOk = true)
    (total : ℕ) : ∃ count stored, storeElements source (fun _ => none) (fun _ => none) elements total = (count,none,stored) := by
  induction elements generalizing total with
  | nil => exact ⟨total,[],rfl⟩
  | cons element rest ih =>
    obtain ⟨hfirst,hrest⟩ := List.forall_mem_cons.mp h
    cases element with
    | error err => cases hfirst
    | ok txn =>
      obtain ⟨count,stored,hstored⟩ := ih hrest (total+1)
      exact ⟨count,{ txn with source := source } :: stored,by simp [storeElements,hstored]⟩

end

inductive Upload
  /-- The file cannot be kept, or is of another type. -/
  | refused (err : String)
  | csv (u : CsvUpload)
  | json (source : String) (content : JsonContent)

/-- The upload can be reported as successful with this count, after these transactions have been stored. -/
def Upload.Succeeds (count : ℕ) (stored : List ExternalTransaction) : Upload → Prop
  | .refused _ => False
  | .csv u => ∃ m, processCSV u = .ok m ∧ ∃ s, m.Reaches s ∧ s.result = some (count,[]) ∧ s.shared.stored = stored
  | .json source content => ∃ store contextErr, processJSON source store contextErr content = (count,none,stored)

/-- The whole content has been read, every record has been stored once, and the count is their number. -/
def Upload.Complete (count : ℕ) (stored : List ExternalTransaction) : Upload → Prop
  | .refused _ => False
  | .csv u => ∃ m, processCSV u = .ok m ∧ (stored.map ok).Perm (m.answers u.rows) ∧ count = u.rows.length
  | .json source content => content.ending = .bracket ∧
      (stored.map ok).Perm (content.elements.map (·.map ({ · with source := source }))) ∧ count = content.elements.length

def Upload.Accounted (u : Upload) : Prop := ∀ count stored, u.Succeeds count stored → u.Complete count stored

/-- A context that can end early finds no record at the start of a CSV file, and a JSON array of transactions is closed. -/
def Upload.Reliable : Upload → Prop
  | .refused _ => True
  | .csv u => ∀ m, processCSV u = .ok m → u.cancellable = true → ¬ m.Begins
  | .json _ content => content.opening = .ok true → (∀ element ∈ content.elements, element.isOk = true) → content.ending = .bracket

theorem processCSV_ok {u : CsvUpload} {m : CsvImport} (h : processCSV u = .ok m) : m.rows = u.rows ∧ m.cancellable = u.cancellable := by
  unfold processCSV at h
  split at h
  · cases h
  obtain ⟨columnMap,-,h⟩ := bind_ok h
  cases h
  exact ⟨rfl,rfl⟩

theorem csv_accounted_iff (u : CsvUpload) : (Upload.csv u).Accounted ↔ (Upload.csv u).Reliable := by
  constructor
  · intro h m hm hcancellable
    obtain ⟨hrows,hsame⟩ := processCSV_ok hm
    rintro ⟨record,rest,hbegins⟩
    obtain ⟨s,hs,hresult,hstored⟩ := exists_unread (hsame.trans hcancellable) hbegins
    obtain ⟨-,-,-,hcount⟩ := h 0 [] ⟨m,hm,s,hs,hresult,hstored⟩
    rw [← hrows,hbegins] at hcount
    cases hcount
  · rintro h count stored ⟨m,hm,s,hs,hresult,rfl⟩
    obtain ⟨hrows,hsame⟩ := processCSV_ok hm
    have haccounted := accounted_iff.mpr (fun hcancellable => h m hm (hsame ▸ hcancellable)) s hs count hresult
    rw [hrows] at haccounted
    exact ⟨m,hm,haccounted⟩

theorem json_accounted_iff (source : String) (content : JsonContent) :
    (Upload.json source content).Accounted ↔ (Upload.json source content).Reliable := by
  constructor
  · intro h hopening hdecoded
    obtain ⟨count,stored,hstored⟩ := exists_storeElements source hdecoded 0
    exact (h count stored ⟨_,_,by rw [processJSON,hopening]; exact hstored⟩).1
  · rintro h count stored ⟨store,contextErr,hresult⟩
    unfold processJSON at hresult
    split at hresult
    · cases hresult
    · cases hresult
    · rename_i hopening
      obtain ⟨hstored,hcount⟩ := storeElements_ok hresult
      refine ⟨h hopening fun element helement => ?_,.of_eq hstored,by rw [hcount,zero_add]⟩
      have hmem : element.map ({ · with source := source }) ∈ stored.map ok := hstored ▸ List.mem_map_of_mem helement
      cases element with
      | error err =>
        obtain ⟨txn,-,htxn⟩ := List.mem_map.mp hmem
        cases htxn
      | ok txn => rfl

/-- A successful report is right exactly for these uploads. -/
theorem upload_accounted (u : Upload) : u.Accounted ↔ u.Reliable := by
  cases u with
  | refused err => exact ⟨fun _ => trivial,fun _ _ _ h => h.elim⟩
  | csv u => exact csv_accounted_iff u
  | json source content => exact json_accounted_iff source content

def cutShort : Upload × Upload :=
  (.csv ⟨.ok ["id","amount","date"],[.ok ["1","2","2024-01-01T00:00:00Z"]],
      ⟨id,fun text => String.ofList (text.toList.map Char.toLower),fun _ => .ofInt 2,fun _ => 0⟩,"bank",4,false,true,by decide⟩,
    .json "bank" ⟨.ok true,[.ok ⟨"1",.ofInt 2,"ref","USD","text",0,""⟩],.input⟩)

/-- Both are reported as successful: the first one with nothing stored, because the context has ended, the second one
although its array is not closed. -/
theorem cut_short_succeeds :
    (cutShort.1.Succeeds 0 [] ∧ ¬ cutShort.1.Complete 0 []) ∧
    cutShort.2.Succeeds 1 [⟨"1",.ofInt 2,"ref","USD","text",0,"bank"⟩] ∧
      ¬ cutShort.2.Complete 1 [⟨"1",.ofInt 2,"ref","USD","text",0,"bank"⟩] := by
  refine ⟨⟨?_,?_⟩,⟨fun _ => none,fun _ => none,rfl⟩,nofun⟩
  · obtain ⟨s,hs,hresult,hstored⟩ := exists_unread (m := ⟨[.ok ["1","2","2024-01-01T00:00:00Z"]],_,[("id",0),("amount",1),("date",2)],
      "bank",4,false,true,by decide⟩) rfl rfl
    exact ⟨_,rfl,s,hs,hresult,hstored⟩
  · rintro ⟨-,-,-,hcount⟩
    cases hcount

end LedgerForge.Files
