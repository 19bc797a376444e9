import FinBert.Prep.Tokenization

/-!
# From input files to training records

`create_training_instances` and `write_instance_to_example_files` of
`src/data/prep/create_pretraining_data.py`. An input file is the list of its lines, and an
output file the list of the examples that were written to it.
-/

namespace FinBert.Prep

open Random

/-- The flags that the generator reads. -/
structure Flags where
  maxSeqLength : Int
  maxPredictionsPerSeq : Nat
  dupeFactor : Int
  shortSeqProb : ℚ
  doWholeWordMask : Bool
  rounded : Nat → Int

/-! ## `create_training_instances` -/

/-- The body of the loop over the lines of the input files. An empty line starts a document. -/
def addLine (tokenizer : FullTokenizer) (allDocuments : List Document) (line : Text) :
    List Document :=
  let line := strip line
  let allDocuments := if line.isEmpty then allDocuments ++ [[]] else allDocuments
  let tokens := tokenizer.tokenize line
  if tokens.isEmpty then allDocuments else appendToLast allDocuments tokens

/-- `all_documents`, before it is shuffled: the documents that are not empty. -/
def readDocuments (tokenizer : FullTokenizer) (inputFiles : List (List Text)) : List Document :=
  ((inputFiles.flatMap readLines).foldl (addLine tokenizer) [[]]).filter
    fun document => !document.isEmpty

/-- The loops over the duplicates and over the documents. -/
def extendInstances (create : Nat → Py (List TrainingInstance)) :
    List Nat → Py (List TrainingInstance)
  | [] => pure []
  | documentIndex :: indexes => do
    let instances ← create documentIndex
    let rest ← extendInstances create indexes
    return instances ++ rest

/-- The arguments of `create_instances_from_document` for one document. -/
def Flags.documentArgs (flags : Flags) (allDocuments : List Document) (documentIndex : Nat) :
    DocumentArgs where
  allDocuments := allDocuments
  documentIndex := documentIndex
  maxSeqLength := flags.maxSeqLength
  shortSeqProb := flags.shortSeqProb

/-- The arguments of the masking. -/
def Flags.maskConfig (flags : Flags) (tokenizer : FullTokenizer) : MaskConfig where
  doWholeWordMask := flags.doWholeWordMask
  rounded := flags.rounded
  maxPredictionsPerSeq := flags.maxPredictionsPerSeq
  vocabWords := tokenizer.vocab.keys

/-- `create_training_instances`. -/
def createTrainingInstances (flags : Flags) (tokenizer : FullTokenizer)
    (inputFiles : List (List Text)) : Py (List TrainingInstance) := do
  let allDocuments ← shuffle (readDocuments tokenizer inputFiles)
  let indexes := List.range allDocuments.length
  let instances ← extendInstances
    (fun documentIndex => Pretraining.createInstancesFromDocument
      (flags.documentArgs allDocuments documentIndex) (flags.maskConfig tokenizer))
    (List.replicate flags.dupeFactor.toNat indexes).flatten
  shuffle instances

/-! ## `write_instance_to_example_files` -/

/-- The features of a record. -/
structure Example where
  inputIds : List Nat
  inputMask : List Nat
  segmentIds : List Nat
  maskedLmPositions : List Nat
  maskedLmIds : List Nat
  maskedLmWeights : List ℚ
  nextSentenceLabels : List Nat
deriving DecidableEq

/-- `xs` with `n` times `0` appended, one in each turn of a padding loop. -/
def padded {α : Type} [Zero α] (n : Nat) (xs : List α) : List α := xs ++ List.replicate n 0

/-- The record of an instance. The lengths of `input_ids` and of `masked_lm_positions`
alone decide how often the padding loops turn. -/
def exampleOf (tokenizer : FullTokenizer) (maxSeqLength : Int) (maxPredictionsPerSeq : Nat)
    (inst : TrainingInstance) : Py Example := do
  let inputIds ← tokenizer.convertTokensToIds inst.tokens
  assert ((inputIds.length : Int) ≤ maxSeqLength)
  let turns := (maxSeqLength - inputIds.length).toNat
  let inputMask := padded turns (List.replicate inputIds.length 1)
  let segmentIds := padded turns inst.segmentIds
  let inputIds := padded turns inputIds
  assert ((inputIds.length : Int) = maxSeqLength)
  assert ((inputMask.length : Int) = maxSeqLength)
  assert ((segmentIds.length : Int) = maxSeqLength)
  let maskedLmIds ← tokenizer.convertTokensToIds inst.maskedLmLabels
  let turns := maxPredictionsPerSeq - inst.maskedLmPositions.length
  return { inputIds, inputMask, segmentIds
           maskedLmPositions := padded turns inst.maskedLmPositions
           maskedLmIds := padded turns maskedLmIds
           maskedLmWeights := padded turns (List.replicate maskedLmIds.length 1)
           nextSentenceLabels := [if inst.isRandomNext then 1 else 0] }

/-- `writers[writer_index].write(...)`. -/
def writeTo (files : List (List Example)) (writerIndex : Nat) (record : Example) :
    Py (List (List Example)) := do
  let file ← getItem files writerIndex
  return files.set writerIndex (file ++ [record])

/-- The loop over the instances. -/
def writeInstances (tokenizer : FullTokenizer) (maxSeqLength : Int) (maxPredictionsPerSeq : Nat) :
    List TrainingInstance → List (List Example) → Nat → Py (List (List Example))
  | [], files, _ => pure files
  | inst :: instances, files, writerIndex => do
    let record ← exampleOf tokenizer maxSeqLength maxPredictionsPerSeq inst
    let files ← writeTo files writerIndex record
    writeInstances tokenizer maxSeqLength maxPredictionsPerSeq instances files
      ((writerIndex + 1) % files.length)

/-- `FLAGS.output_file.split(",")`: the names of the output files. -/
def outputFiles (outputFile : Text) : List Text := outputFile.splitOnP (· == ',')

/-- `write_instance_to_example_files`, with the contents of the output files. -/
def writeInstanceToExampleFiles (tokenizer : FullTokenizer) (maxSeqLength : Int)
    (maxPredictionsPerSeq : Nat) (outputFiles : List Text) (instances : List TrainingInstance) :
    Py (List (List Example)) :=
  writeInstances tokenizer maxSeqLength maxPredictionsPerSeq instances
    (outputFiles.map fun _ => []) 0

end FinBert.Prep
