import Tweezer.BlockReads

/-!
# The end of a table

`BlockBasedTableBuilder::Finish` of `table/block_based/block_based_table_builder.cc` behind the
data blocks, and `MetaIndexBuilder` of `table/meta_blocks.cc`.
-/

namespace Tweezer

def asciiBytes (s : String) : Bytes := s.toList.map fun c => c.toNat.toUInt8

def kPropertiesBlock : Bytes := asciiBytes "rocksdb.properties"

def kCompressionDictBlock : Bytes := asciiBytes "rocksdb.compression_dict"

def kRangeDelBlock : Bytes := asciiBytes "rocksdb.range_del"

/-- `MetaIndexBuilder::Add`, which keeps the names sorted and a name that is there. -/
def metaIndexAdd (name : Bytes) (handle : BlockHandle) :
    List (Bytes × Bytes) → List (Bytes × Bytes)
  | [] => [(name, IndexValue.encode handle none)]
  | e :: es =>
      match compare name e.1 with
      | .lt => (name, IndexValue.encode handle none) :: e :: es
      | .eq => e :: es
      | .gt => e :: metaIndexAdd name handle es

/-- `MetaIndexBuilder::Finish`. -/
def metaIndexFinish (entries : List (Bytes × Bytes)) : Bytes :=
  (entries.foldl (fun b e => b.add e.1 e.2 []) (PlainBlockBuilder.create 1 true false)).finish

/-- What `Finish` has to write. Of the blocks of a filter the last one goes to the metaindex. -/
structure SstContents where
  alignment : Option ℕ
  dataBlocks : List SstBlock
  filterBlocks : List SstBlock
  filterName : Bytes
  indexMetaBlocks : List (Bytes × SstBlock)
  index : SstBlock
  compressionDict : Option SstBlock
  rangeDel : Option SstBlock
  properties : SstBlock
  metaIndexUnset : Octets 4
  footer : Bytes
  meta_not_data : ∀ b ∈ filterBlocks ++ indexMetaBlocks.map Prod.snd ++ [index] ++
    compressionDict.toList ++ rangeDel.toList ++ [properties], b.isDataBlock = false

namespace SstContents

variable (E : TableEnv) (t : SstContents)

/-- The blocks in front of the index in the order of `Finish`, those that are put into the
metaindex with their names. -/
def beforeIndex : List (Option Bytes × SstBlock) :=
  t.dataBlocks.map (none, ·) ++ t.filterBlocks.dropLast.map (none, ·) ++
    t.filterBlocks.getLast?.toList.map (some t.filterName, ·) ++
    t.indexMetaBlocks.map fun b => (some b.1, b.2)

/-- The blocks between the index and the metaindex. -/
def afterIndex : List (Option Bytes × SstBlock) :=
  t.compressionDict.toList.map (some kCompressionDictBlock, ·) ++
    t.rangeDel.toList.map (some kRangeDelBlock, ·) ++ [(some kPropertiesBlock, t.properties)]

def named : List (Option Bytes × SstBlock) := t.beforeIndex ++ (none, t.index) :: t.afterIndex

/-- The calls of `MetaIndexBuilder::Add`, from this offset in the file on. -/
def metaIndexEntries : ℕ → List (Option Bytes × SstBlock) → List (Bytes × Bytes) →
    List (Bytes × Bytes)
  | _, [], entries => entries
  | offset, (name, b) :: bs, entries =>
      metaIndexEntries (offset + (b.written E t.alignment).length) bs
        (match name with
          | none => entries
          | some name => metaIndexAdd name ⟨offset, (b.raw E).data.length⟩ entries)

def metaIndex : SstBlock :=
  ⟨metaIndexFinish (t.metaIndexEntries E 0 t.named []), kNoCompression, false, t.metaIndexUnset⟩

def blocks : List SstBlock := t.named.map Prod.snd ++ [t.metaIndex E]

def file : Bytes := (t.blocks E).flatMap (SstBlock.written E t.alignment) ++ t.footer

def indexHandle : BlockHandle :=
  SstBlock.handle E t.alignment (t.blocks E) t.beforeIndex.length t.index

def propertiesHandle : BlockHandle :=
  SstBlock.handle E t.alignment (t.blocks E) (t.named.length - 1) t.properties

def metaIndexHandle : BlockHandle :=
  SstBlock.handle E t.alignment (t.blocks E) t.named.length (t.metaIndex E)

end SstContents

/-- Behind a block the file goes on with the later ones. -/
theorem SstBlock.handle_before (E : TableEnv) (alignment : Option ℕ) {blocks : List SstBlock}
    {i j : ℕ} {b : SstBlock} (hb : blocks[i]? = some b) (hij : i < j) (b' : SstBlock) :
    (SstBlock.handle E alignment blocks i b).offset +
        ((SstBlock.handle E alignment blocks i b).size + kBlockTrailerSize) ≤
      (SstBlock.handle E alignment blocks j b').offset := by
  obtain ⟨hi, hget⟩ := List.getElem?_eq_some_iff.mp hb
  have htake : blocks.take j = blocks.take i ++ b :: (blocks.drop (i + 1)).take (j - (i + 1)) := by
    have hsucc : blocks.take j = blocks.take (i + 1) ++ (blocks.drop (i + 1)).take (j - (i + 1)) := by
      rw [← List.take_add]
      congr 1
      omega
    rw [hsucc, List.take_succ_eq_append_getElem hi, hget, List.append_assoc]
    rfl
  unfold SstBlock.handle
  dsimp only
  rw [htake, List.flatMap_append, List.flatMap_cons, List.length_append, List.length_append,
    SstBlock.written, List.length_append, List.length_append, RawBlock.length_trailer]
  omega

theorem Bytes.slice_set (b : Bytes) {p off n : ℕ} (x : UInt8) (h : p < off ∨ off + n ≤ p) :
    Bytes.slice (b.set p x) off n = Bytes.slice b off n := by
  apply List.ext_getElem?
  intro i
  rw [Bytes.slice, Bytes.slice, List.getElem?_take, List.getElem?_take, List.getElem?_drop,
    List.getElem?_drop]
  by_cases hi : i < n
  · rw [if_pos hi, if_pos hi, List.getElem?_set_ne (by omega)]
  · rw [if_neg hi, if_neg hi]

end Tweezer
