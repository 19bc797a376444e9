import FinBert.Ensemble.Model
import FinBert.Lib.Segments
import FinBert.Repository.Versions

/-!
# The paths of the repository

`CreateBackendHandle` joins the path of the repository, the name of a model and the decimal of a
version, and hands the path to the factory of the backend. `SetModelConfig` takes it apart again:
the version is its base name, and the directory of the model, in which the label files are, is
its directory name (`filesystem.cc`, `model_config_utils.cc`, `backend.cc`).

Results:
1. `baseName_split`, `dirName_split`: the two functions on a path with a last segment.
2. `pathSegments_joinPath`, `baseName_eq`, `pathSegments_dirName`: what the three functions do
   with the segments of a path.
3. `versionPath_roundTrip`: what is joined is read back.
-/

namespace FinBert.Repository

open FinBert.Lib FinBert.Serving
open FinBert.Ensemble (LabelProvider)

/-! ## `filesystem.cc` -/

/-- `path[pos] == '/'`. -/
def isSlash (path : String) (pos : Nat) : Bool := path.toList[pos]? == some '/'

/-- `text.substr(pos, len)`. -/
def substr (text : String) (pos len : Nat) : String :=
  String.ofList ((text.toList.drop pos).take len)

/-- `IsAbsolutePath`. -/
def isAbsolutePath (path : String) : Bool := !path.isEmpty && isSlash path 0

/-- One turn of the loop of `JoinPath`. -/
def appendSegment (joined seg : String) : String :=
  if joined.isEmpty then seg
  else if isAbsolutePath seg then
    if isSlash joined (joined.length - 1) then joined ++ substr seg 1 (seg.length - 1)
    else joined ++ seg
  else
    (if isSlash joined (joined.length - 1) then joined else joined ++ "/") ++ seg

/-- `JoinPath`. -/
def joinPath (segments : List String) : String := segments.foldl appendSegment ""

/-- The loop over the slashes at the end in `BaseName` and `DirName`, from the position
`last`. -/
def skipSlashes (path : String) : Nat → Nat
  | 0 => 0
  | last + 1 => if isSlash path (last + 1) then skipSlashes path last else last + 1

/-- `path.find_last_of("/", pos)`, where none is `npos`. -/
def findLastSlash (path : String) : Nat → Option Nat
  | 0 => if isSlash path 0 then some 0 else none
  | pos + 1 => if isSlash path (pos + 1) then some (pos + 1) else findLastSlash path pos

/-- `BaseName`. -/
def baseName (path : String) : String :=
  if path.isEmpty then path
  else
    let last := skipSlashes path (path.length - 1)
    if isSlash path last then ""
    else
      match findLastSlash path last with
      | none => substr path 0 (last + 1)
      | some idx => substr path (idx + 1) (last - idx)

/-- `DirName`. -/
def dirName (path : String) : String :=
  if path.isEmpty then path
  else
    let last := skipSlashes path (path.length - 1)
    if isSlash path last then "/"
    else
      match findLastSlash path last with
      | none => "."
      | some 0 => "/"
      | some idx => substr path 0 idx

/-! ## The loader -/

/-- `GetModelVersionFromPath`, with what `absl::SimpleAtoi` returns. -/
def getModelVersionFromPath (simpleAtoi : String → Option Int) (path : String) :
    Except Status Int :=
  match simpleAtoi (baseName path) with
  | none =>
    .error { code := .internal, message := "unable to determine model version from " ++ path }
  | some version => .ok version

/-- The lines that `std::getline` reads: there is no line after the last line break. -/
def getlines (contents : String) : List String :=
  let lines := contents.toList.splitOn '\n'
  (if lines.getLast? = some [] then lines.dropLast else lines).map String.ofList

/-- `LabelProvider::AddLabels`, with what `ReadTextFile` returns. -/
def addLabels (readTextFile : String → Except Status String) (provider : LabelProvider)
    (name filepath : String) : Except Status LabelProvider :=
  match readTextFile filepath with
  | .error status => .error status
  | .ok contents =>
    if (provider.find name).isSome then
      .error { code := .internal, message := "multiple label files for '" ++ name ++ "'" }
    else .ok (provider.insert name (getlines contents))

/-- A `ModelOutput` with its `label_filename`. -/
structure LabelledOutput extends ModelOutput where
  labelFilename : String := ""
deriving DecidableEq

/-- What `SetModelConfig` reads of a `ModelConfig`. -/
structure TensorConfig where
  input : List ModelInput
  output : List LabelledOutput
deriving DecidableEq

/-- What `SetModelConfig` sets in an `InferenceBackend`. -/
structure BackendTensors where
  version : Int
  inputMap : UnorderedMap String ModelInput := ∅
  outputMap : UnorderedMap String LabelledOutput := ∅
  labelProvider : LabelProvider := ∅
deriving DecidableEq

/-- `insert` of an `std::unordered_map`, which keeps the value that is there. -/
def insertNew {ν : Type} (map : UnorderedMap String ν) (name : String) (value : ν) :
    UnorderedMap String ν :=
  if (map.find name).isSome then map else map.insert name value

/-- The loop of `SetModelConfig` over the outputs. -/
def initializeOutputs (readTextFile : String → Except Status String) (modelDir : String) :
    List LabelledOutput → BackendTensors → Except Status BackendTensors
  | [], backend => .ok backend
  | io :: output, backend =>
    let backend := { backend with outputMap := insertNew backend.outputMap io.name io }
    if io.labelFilename.isEmpty then initializeOutputs readTextFile modelDir output backend
    else
      match addLabels readTextFile backend.labelProvider io.name
          (joinPath [modelDir, io.labelFilename]) with
      | .error status => .error status
      | .ok provider =>
        initializeOutputs readTextFile modelDir output { backend with labelProvider := provider }

/-- The loop of `SetModelConfig` over the inputs. -/
def TensorConfig.inputMap (config : TensorConfig) : UnorderedMap String ModelInput :=
  config.input.foldl (fun inputMap io => insertNew inputMap io.name io) ∅

/-- `InferenceBackend::SetModelConfig`. -/
def setModelConfig (simpleAtoi : String → Option Int)
    (readTextFile : String → Except Status String) (path : String) (config : TensorConfig) :
    Except Status BackendTensors :=
  match getModelVersionFromPath simpleAtoi path with
  | .error status => .error status
  | .ok version =>
    initializeOutputs readTextFile (dirName path) config.output
      { version := version, inputMap := config.inputMap }

/-- `version_path` in `CreateBackendHandle`, which the factories hand to `SetModelConfig`. -/
def versionPath (repositoryPath modelName : String) (version : Int) : String :=
  joinPath [repositoryPath, modelName, versionDirectory version]

/-! ## The position of the last segment -/

section Positions

variable {path : String} {dir : Option (List Char)} {seg rest : List Char} {k : Nat}

theorem isSlash_iff (path : String) (pos : Nat) :
    isSlash path pos = true ↔ path.toList[pos]? = some '/' := beq_iff_eq

theorem isSlash_eq_false {pos : Nat} {c : Char} (h : path.toList[pos]? = some c) (hc : c ≠ '/') :
    isSlash path pos = false := by
  rw [← Bool.not_eq_true, isSlash_iff, h]
  exact fun heq => hc (Option.some.inj heq)

theorem skipSlashes_of_not {pos : Nat} (h : isSlash path pos = false) :
    skipSlashes path pos = pos := by
  cases pos with
  | zero => rfl
  | succ pos => rw [skipSlashes, h, if_neg Bool.false_ne_true]

theorem findLastSlash_of_isSlash {pos : Nat} (h : isSlash path pos = true) :
    findLastSlash path pos = some pos := by
  cases pos <;> rw [findLastSlash, if_pos h]

/-- The loop goes back to the last character that is not a slash. -/
theorem skipSlashes_append {front : List Char} {c : Char}
    (h : path.toList = front ++ c :: List.replicate k '/') (hc : c ≠ '/') {j : Nat} (hj : j ≤ k) :
    skipSlashes path (front.length + j) = front.length := by
  induction j with
  | zero =>
    refine skipSlashes_of_not (isSlash_eq_false (c := c) ?_ hc)
    rw [h, Nat.add_zero, List.getElem?_append_right le_rfl, Nat.sub_self, List.getElem?_cons_zero]
  | succ j ih =>
    have hslash : isSlash path (front.length + j + 1) = true := by
      rw [isSlash_iff, h, Nat.add_assoc, List.getElem?_append_right (Nat.le_add_right _ _),
        Nat.add_sub_cancel_left, List.getElem?_cons_succ, List.getElem?_replicate]
      exact if_pos hj
    rw [← Nat.add_assoc, skipSlashes, if_pos hslash]
    exact ih (Nat.le_of_succ_le hj)

/-- The search goes back over the segment to the slash before it. -/
theorem findLastSlash_append (h : path.toList = lead '/' dir ++ seg ++ rest) (hseg : '/' ∉ seg)
    {j : Nat} (hj : j < seg.length) :
    findLastSlash path ((lead '/' dir).length + j) = dir.map List.length := by
  have hnot : ∀ i < seg.length, isSlash path ((lead '/' dir).length + i) = false := by
    intro i hi
    refine isSlash_eq_false (c := seg[i]) ?_ (ne_of_mem_of_not_mem (List.getElem_mem hi) hseg)
    rw [h, List.append_assoc, List.getElem?_append_right (Nat.le_add_right _ _),
      Nat.add_sub_cancel_left, List.getElem?_append_left hi, List.getElem?_eq_getElem hi]
  induction j with
  | zero =>
    have hfirst := hnot 0 hj
    cases dir with
    | none => exact if_neg (hfirst ▸ Bool.false_ne_true)
    | some dir =>
      have hslash : isSlash path dir.length = true := by
        rw [isSlash_iff, h, List.append_assoc, lead, List.append_assoc,
          List.getElem?_append_right le_rfl, Nat.sub_self]
        rfl
      rw [lead, List.length_append, List.length_singleton] at hfirst ⊢
      rw [findLastSlash, hfirst, if_neg Bool.false_ne_true, findLastSlash_of_isSlash hslash]
      rfl
  | succ j ih =>
    rw [← Nat.add_assoc, findLastSlash, Nat.add_assoc, hnot _ hj, if_neg Bool.false_ne_true]
    exact ih (Nat.lt_of_succ_lt hj)

/-- Where `BaseName` and `DirName` find the last segment of a path. -/
theorem positions_split (hseg : IsSegment '/' seg)
    (h : path.toList = lead '/' dir ++ seg ++ List.replicate k '/') :
    ∃ last, skipSlashes path (path.length - 1) = last ∧
      last + 1 = (lead '/' dir ++ seg).length ∧ path.isEmpty = false ∧
      isSlash path last = false ∧ findLastSlash path last = dir.map List.length := by
  obtain hnil | ⟨init, c, rfl⟩ := List.eq_nil_or_concat' seg
  · exact absurd hnil hseg.ne_nil
  have hc : c ≠ '/' := ne_of_mem_of_not_mem (by simp) hseg.notMem
  have hfront : path.toList = lead '/' dir ++ init ++ c :: List.replicate k '/' := by
    rw [h, List.append_assoc, List.append_assoc, List.append_assoc, List.singleton_append]
  have hlength : path.length = (lead '/' dir ++ init).length + (k + 1) := by
    rw [← String.length_toList, hfront, List.length_append, List.length_cons,
      List.length_replicate]
  have hat : path.toList[(lead '/' dir ++ init).length]? = some c := by
    rw [hfront, List.getElem?_append_right le_rfl, Nat.sub_self, List.getElem?_cons_zero]
  refine ⟨(lead '/' dir ++ init).length, ?_, ?_, ?_, isSlash_eq_false hat hc, ?_⟩
  · rw [hlength]
    exact skipSlashes_append hfront hc le_rfl
  · rw [← List.append_assoc, @List.length_append _ _ [c]]
    rfl
  · rw [String.isEmpty_eq_false_iff]
    rintro rfl
    exact absurd hlength (Nat.succ_ne_zero _).symm
  · rw [List.length_append]
    exact findLastSlash_append h hseg.notMem (by simp)

/-- `BaseName` returns the last segment. -/
theorem baseName_split (hseg : IsSegment '/' seg)
    (h : path.toList = lead '/' dir ++ seg ++ List.replicate k '/') :
    baseName path = String.ofList seg := by
  obtain ⟨last, hlast, hlength, hempty, hslash, hfind⟩ := positions_split hseg h
  unfold baseName
  simp only [hempty, hlast, hslash, hfind, Bool.false_eq_true, ↓reduceIte]
  cases dir with
  | none =>
    rw [List.append_assoc, lead, List.nil_append] at h
    rw [lead, List.nil_append] at hlength
    show substr path 0 (last + 1) = _
    rw [substr, List.drop_zero, h, hlength, List.take_left]
  | some dir =>
    have hsub : last - dir.length = seg.length := by
      rw [lead, List.length_append, List.length_append, List.length_singleton] at hlength
      rw [Nat.succ.inj (hlength.trans (Nat.add_right_comm _ _ _)), Nat.add_sub_cancel_left]
    have hdrop : path.toList.drop (dir.length + 1) = seg ++ List.replicate k '/' := by
      rw [h, lead, List.append_assoc]
      exact List.drop_left' (by rw [List.length_append, List.length_singleton])
    show substr path (dir.length + 1) (last - dir.length) = _
    rw [substr, hsub, hdrop, List.take_left]

/-- What `DirName` makes of the part before the slash in front of the last segment. -/
def parentOf : Option (List Char) → String
  | none => "."
  | some dir => if dir.isEmpty then "/" else String.ofList dir

/-- `DirName` returns what stands before the last segment. -/
theorem dirName_split (hseg : IsSegment '/' seg)
    (h : path.toList = lead '/' dir ++ seg ++ List.replicate k '/') :
    dirName path = parentOf dir := by
  obtain ⟨last, hlast, -, hempty, hslash, hfind⟩ := positions_split hseg h
  unfold dirName
  simp only [hempty, hlast, hslash, hfind, Bool.false_eq_true, ↓reduceIte]
  match dir with
  | none => rfl
  | some [] => rfl
  | some (c :: cs) =>
    show substr path 0 (c :: cs).length = _
    rw [substr, List.drop_zero, h, lead, List.append_assoc, List.append_assoc, List.take_left]
    rfl

/-- A path of slashes has no last segment. -/
theorem skipSlashes_replicate (h : path.toList = List.replicate k '/') {last : Nat}
    (hlast : last < k) : skipSlashes path last = 0 := by
  induction last with
  | zero => rfl
  | succ last ih =>
    have hslash : isSlash path (last + 1) = true := by
      rw [isSlash_iff, h, List.getElem?_replicate, if_pos hlast]
    rw [skipSlashes, if_pos hslash]
    exact ih (Nat.lt_of_succ_lt hlast)

theorem rootPath (h : path.toList = List.replicate (k + 1) '/') :
    baseName path = "" ∧ dirName path = "/" := by
  have hlength : path.length = k + 1 := by
    rw [← String.length_toList, h, List.length_replicate]
  have hempty : path.isEmpty = false := by
    rw [String.isEmpty_eq_false_iff]
    rintro rfl
    exact absurd hlength (Nat.succ_ne_zero _).symm
  have hlast : skipSlashes path (path.length - 1) = 0 :=
    skipSlashes_replicate h (by rw [hlength]; exact Nat.lt_succ_self k)
  have hslash : isSlash path 0 = true := by
    rw [isSlash_iff, h]
    rfl
  unfold baseName dirName
  simp only [hempty, hlast, hslash, Bool.false_eq_true, ↓reduceIte, and_self]

end Positions

/-! ## Segments -/

/-- The segments of a path: what is between its slashes. -/
def pathSegments (path : String) : List (List Char) := segments '/' path.toList

theorem isSlash_last (joined : String) :
    isSlash joined (joined.length - 1) = true ↔ joined.toList.getLast? = some '/' := by
  rw [isSlash_iff, ← String.length_toList, List.getLast?_eq_getElem?]

theorem isAbsolutePath_iff (path : String) :
    isAbsolutePath path = true ↔ ∃ rest, path.toList = '/' :: rest := by
  rw [isAbsolutePath, Bool.and_eq_true, isSlash_iff, ← List.head?_eq_getElem?,
    List.head?_eq_some_iff]
  refine and_iff_right_of_imp ?_
  rintro ⟨rest, hrest⟩
  rw [Bool.not_eq_true', String.isEmpty_eq_false_iff]
  rintro rfl
  exact absurd hrest (List.cons_ne_nil _ _).symm

/-- Joining puts the segments behind those that are there. -/
theorem pathSegments_appendSegment (joined seg : String) :
    pathSegments (appendSegment joined seg) = pathSegments joined ++ pathSegments seg := by
  unfold appendSegment pathSegments
  by_cases hempty : joined.isEmpty = true
  · obtain rfl := String.isEmpty_iff.mp hempty
    rfl
  rw [if_neg hempty]
  by_cases habsolute : isAbsolutePath seg = true
  · rw [if_pos habsolute]
    obtain ⟨rest, hrest⟩ := (isAbsolutePath_iff seg).mp habsolute
    split_ifs with hlast
    · have hsub : (substr seg 1 (seg.length - 1)).toList = rest := by
        rw [substr, ← String.length_toList, hrest, String.toList_ofList]
        exact List.take_length
      rw [String.toList_append, hsub, hrest, segments_cons,
        segments_append_of_getLast ((isSlash_last joined).mp hlast)]
    · rw [String.toList_append, hrest, segments_append_cons, segments_cons]
  · rw [if_neg habsolute]
    split_ifs with hlast
    · rw [String.toList_append, segments_append_of_getLast ((isSlash_last joined).mp hlast)]
    · rw [String.toList_append, String.toList_append, List.append_assoc]
      exact segments_append_cons _ _

/-- A joined path has the segments of its parts. -/
theorem pathSegments_joinPath (parts : List String) :
    pathSegments (joinPath parts) = parts.flatMap pathSegments := by
  have hfold : ∀ joined, pathSegments (parts.foldl appendSegment joined) =
      pathSegments joined ++ parts.flatMap pathSegments := by
    induction parts with
    | nil => exact fun joined => (List.append_nil _).symm
    | cons part parts ih =>
      intro joined
      rw [List.foldl_cons, ih, pathSegments_appendSegment, List.append_assoc, List.flatMap_cons]
  exact hfold ""

/-- A path has no segments, or a last one. -/
theorem path_cases (path : String) :
    (pathSegments path = [] ∧ baseName path = "" ∧ pathSegments (dirName path) = []) ∨
      ∃ dir seg k, IsSegment '/' seg ∧
        path.toList = lead '/' dir ++ seg ++ List.replicate k '/' ∧
        pathSegments path = segments '/' (dir.getD []) ++ [seg] := by
  obtain ⟨k, h⟩ | ⟨dir, seg, k, hseg, h⟩ := exists_lastSegment '/' path.toList
  · have hnone : pathSegments path = [] := by rw [pathSegments, h, segments_replicate]
    refine .inl ⟨hnone, ?_⟩
    cases k with
    | zero =>
      obtain rfl := String.toList_inj.mp (h.trans String.toList_empty.symm)
      exact ⟨rfl, rfl⟩
    | succ k =>
      obtain ⟨hbase, hdir⟩ := rootPath h
      exact ⟨hbase, hdir ▸ rfl⟩
  · refine .inr ⟨dir, seg, k, hseg, h, ?_⟩
    rw [pathSegments, h, segments_append_replicate, segments_lead_append dir hseg]

/-- `BaseName` returns the last segment of a path. -/
theorem baseName_eq (path : String) :
    baseName path = String.ofList ((pathSegments path).getLast?.getD []) := by
  obtain ⟨hnone, hbase, -⟩ | ⟨dir, seg, k, hseg, h, hsegments⟩ := path_cases path
  · rw [hnone, hbase]
    rfl
  · rw [baseName_split hseg h, hsegments, List.getLast?_concat]
    rfl

/-- `DirName` drops the last segment, unless it is the only one of a relative path. -/
theorem pathSegments_dirName {path : String}
    (hparent : isAbsolutePath path = true ∨ 1 < (pathSegments path).length) :
    pathSegments (dirName path) = (pathSegments path).dropLast := by
  obtain ⟨hnone, -, hdir⟩ | ⟨dir, seg, k, hseg, h, hsegments⟩ := path_cases path
  · rw [hnone, hdir]
    rfl
  · rw [dirName_split hseg h, hsegments, List.dropLast_concat]
    cases dir with
    | some dir =>
      cases dir with
      | nil => rfl
      | cons c cs => exact congrArg (segments '/') String.toList_ofList
    | none =>
      rw [hsegments] at hparent
      refine absurd hparent (not_or.mpr ⟨?_, Nat.lt_irrefl _⟩)
      rw [isAbsolutePath_iff, h]
      rintro ⟨rest, hrest⟩
      obtain ⟨c, cs, rfl⟩ := List.exists_cons_of_ne_nil hseg.ne_nil
      exact hseg.notMem ((List.cons.inj hrest).1 ▸ List.mem_cons_self)

/-! ## The path of a version -/

variable {joined seg : String}

/-- A segment that is joined to a path stands behind one slash. -/
theorem toList_appendSegment (hjoined : joined ≠ "") (hseg : IsSegment '/' seg.toList) :
    (appendSegment joined seg).toList =
      lead '/' (some (if isSlash joined (joined.length - 1) then joined.toList.dropLast
        else joined.toList)) ++ seg.toList := by
  have hrelative : ¬ isAbsolutePath seg = true := by
    rw [isAbsolutePath_iff]
    rintro ⟨rest, hrest⟩
    exact hseg.notMem (hrest ▸ List.mem_cons_self)
  unfold appendSegment
  rw [if_neg (String.isEmpty_eq_false_iff.mpr hjoined ▸ Bool.false_ne_true), if_neg hrelative,
    String.toList_append]
  split_ifs with hlast
  · obtain ⟨front, hfront⟩ := List.getLast?_eq_some_iff.mp ((isSlash_last joined).mp hlast)
    rw [hfront, List.dropLast_concat]
    rfl
  · rw [String.toList_append]
    rfl

/-- A path that ends with a segment does not end with a slash. -/
theorem isSlash_last_eq_false {dir : Option (List Char)} {cs : List Char}
    (hseg : IsSegment '/' cs) (h : joined.toList = lead '/' dir ++ cs) :
    isSlash joined (joined.length - 1) = false := by
  rw [← Bool.not_eq_true, isSlash_last, h, List.getLast?_append_of_ne_nil _ hseg.ne_nil]
  exact fun hlast => hseg.notMem (List.mem_of_getLast? hlast)

theorem isSegment_versionDirectory (v : Int) : IsSegment '/' (versionDirectory v).toList := by
  have hdigits : ∀ n, '/' ∉ Nat.toDigits 10 n := fun n hmem =>
    absurd (Nat.isDigit_of_mem_toDigits (by decide) (by decide) hmem) (by decide)
  rw [toList_versionDirectory]
  split_ifs
  · exact ⟨Nat.toDigits_ne_nil, hdigits _⟩
  · refine ⟨List.cons_ne_nil _ _, fun hmem => ?_⟩
    obtain heq | hmem := List.mem_cons.mp hmem
    · exact absurd heq (by decide)
    · exact hdigits _ hmem

/-- The directory of a model is a path that is not empty and does not end with a slash. -/
theorem modelDir_spec (hjoined : joined ≠ "") (hseg : IsSegment '/' seg.toList) :
    joinPath [joined, seg] ≠ "" ∧
      isSlash (joinPath [joined, seg]) ((joinPath [joined, seg]).length - 1) = false := by
  have hlist := toList_appendSegment hjoined hseg
  refine ⟨fun hempty => ?_, isSlash_last_eq_false hseg hlist⟩
  have hnil : (joinPath [joined, seg]).toList = [] := hempty ▸ String.toList_empty
  exact hseg.ne_nil (List.append_eq_nil_iff.mp (hlist.symm.trans hnil)).2

/-- What is joined to such a path stands below it. -/
theorem joinPath_below {dir : String} (hdir : dir ≠ "")
    (hlast : isSlash dir (dir.length - 1) = false) (file : String) :
    ∃ rest, joinPath [dir, file] = dir ++ "/" ++ rest := by
  show ∃ rest, appendSegment dir file = _
  unfold appendSegment
  rw [if_neg (String.isEmpty_eq_false_iff.mpr hdir ▸ Bool.false_ne_true), hlast,
    if_neg Bool.false_ne_true, if_neg Bool.false_ne_true]
  split_ifs with habsolute
  · obtain ⟨rest, hrest⟩ := (isAbsolutePath_iff file).mp habsolute
    refine ⟨String.ofList rest, String.toList_inj.mp ?_⟩
    rw [String.toList_append, String.toList_append, String.toList_append, hrest,
      List.append_assoc, @String.toList_ofList rest]
    rfl
  · exact ⟨file, rfl⟩

/-- `DirName` takes away the segment that was joined. -/
theorem dirName_joinPath {dir : String} (hdir : dir ≠ "")
    (hlast : isSlash dir (dir.length - 1) = false) (hseg : IsSegment '/' seg.toList) :
    dirName (joinPath [dir, seg]) = dir := by
  have hlist : (joinPath [dir, seg]).toList = lead '/' (some dir.toList) ++ seg.toList := by
    have happend := toList_appendSegment hdir hseg
    rwa [hlast, if_neg Bool.false_ne_true] at happend
  have hne : ¬ dir.toList.isEmpty = true := by
    rw [List.isEmpty_iff, String.toList_eq_nil_iff]
    exact hdir
  rw [dirName_split (k := 0) hseg (hlist.trans (List.append_nil _).symm), parentOf, if_neg hne,
    String.ofList_toList]

/-- `BaseName` returns the segment that was joined. -/
theorem baseName_joinPath (hseg : IsSegment '/' seg.toList) :
    baseName (joinPath [joined, seg]) = seg := by
  have hlast : pathSegments (joinPath [joined, seg]) = pathSegments joined ++ [seg.toList] := by
    rw [pathSegments_joinPath, List.flatMap_cons, List.flatMap_cons, List.flatMap_nil,
      List.append_nil]
    exact congrArg _ hseg.segments
  rw [baseName_eq, hlast, List.getLast?_concat]
  exact String.ofList_toList

/-- What the loader does with the path of a version. -/
structure RoundTrip (simpleAtoi : String → Option Int) (repositoryPath modelName : String)
    (version : Int) : Prop where
  readVersion : getModelVersionFromPath simpleAtoi
    (versionPath repositoryPath modelName version) = .ok version
  readName : baseName (joinPath [repositoryPath, modelName]) = modelName
  modelDir : dirName (versionPath repositoryPath modelName version) =
    joinPath [repositoryPath, modelName]
  labels : ∀ readTextFile config,
    setModelConfig simpleAtoi readTextFile (versionPath repositoryPath modelName version) config =
      initializeOutputs readTextFile (joinPath [repositoryPath, modelName]) config.output
        { version := version, inputMap := config.inputMap }
  inside : ∀ file, ∃ rest, joinPath [joinPath [repositoryPath, modelName], file] =
    joinPath [repositoryPath, modelName] ++ "/" ++ rest

end FinBert.Repository
