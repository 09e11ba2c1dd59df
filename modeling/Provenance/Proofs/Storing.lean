/-
# Classes that can be stored

A class is stored as a JSON value, and that value as a text on several lines.  Types and descriptors
are texts in it, so it matters which of them can be told from their text (`Ty.Legible`,
`MethodDesc.Legible`); numbers have the width of the field they are stored in; and a literal that is
a fraction is only written as closely as its digits go.  A class without such literals, of types
that are legible and of numbers that fit is `Storable`, and for these the reader undoes the writer:
of every literal, hook and instruction (`Insn.decode?_encode`), of methods and classes, and of the
text (`Class.parse?_pretty`).  So what the command that weaves writes to a file is the class that it
wove (`Class.stored_exact`).
-/
import Provenance.Proofs.Legible
import Provenance.Proofs.Rereading
import Provenance.Tool.Run

namespace Provenance

namespace Json

/-! ## 1. Reading parts back -/

theorem valuesOf_cons (name : String) (f : String × Json) (fields : List (String × Json)) :
    valuesOf name (f :: fields) =
      if f.1 = name then f.2 :: valuesOf name fields else valuesOf name fields := by
  unfold valuesOf
  rw [List.filterMap_cons]
  by_cases h : f.1 = name <;> simp [h]

theorem valuesOf_of_notMem {name : String} : ∀ {fields : List (String × Json)},
    name ∉ fields.map Prod.fst → valuesOf name fields = []
  | [], _ => rfl
  | f :: fields, h => by
    rw [List.map_cons, List.mem_cons, not_or] at h
    rw [valuesOf_cons, if_neg (Ne.symm h.1), valuesOf_of_notMem h.2]

/-- A name that stands once has one value. -/
theorem valuesOf_of_nodup : ∀ {fields : List (String × Json)}, (fields.map Prod.fst).Nodup →
    ∀ f ∈ fields, valuesOf f.1 fields = [f.2]
  | g :: fields, h, f, hf => by
    rw [List.map_cons, List.nodup_cons] at h
    rw [valuesOf_cons]
    rcases List.mem_cons.mp hf with rfl | hf
    · rw [if_pos rfl, valuesOf_of_notMem h.1]
    · have hne : g.1 ≠ f.1 := fun heq => h.1 (heq ▸ List.mem_map_of_mem hf)
      rw [if_neg hne, valuesOf_of_nodup h.2 f hf]

/-- **A record** is read back field by field, if no name stands there twice. -/
theorem record?_object (fields : List (String × Json)) (h : (fields.map Prod.fst).Nodup) :
    record? (fields.map Prod.fst) (.object fields) = some (fields.map fun f => some f.2) := by
  have honce : ∀ f ∈ fields, once? fields f.1 = some (some f.2) := fun f hf => by
    simp only [once?, valuesOf_of_nodup h f hf]
  have hall : ∀ fs : List (String × Json), (∀ f ∈ fs, once? fields f.1 = some (some f.2)) →
      (fs.map Prod.fst).mapM (once? fields) = some (fs.map fun f => some f.2) := by
    intro fs
    induction fs with
    | nil => exact fun _ => rfl
    | cons f fs ih =>
      intro hfs
      obtain ⟨hf, hfs⟩ := List.forall_mem_cons.mp hfs
      simp [List.mapM_cons, hf, ih hfs]
  exact hall fields honce

theorem asNat?_nat {bound n : Nat} (h : n < bound) : (nat n).asNat? bound = some n := if_pos h

theorem asInt?_int {bound : Nat} {i : Int} (hlo : -(bound : Int) ≤ i) (hhi : i < bound) :
    (int i).asInt? bound = some i := by
  unfold int
  split
  · rename_i hneg
    simp only [asInt?]
    rw [if_pos (by omega)]
    congr 1
    omega
  · simp only [asInt?]
    rw [if_pos (by omega)]
    congr 1
    omega

theorem asList?_map {α : Type} {f : Json → Option α} {g : α → Json} {as : List α}
    (h : ∀ a ∈ as, f (g a) = some a) : (Json.list (as.map g)).asList? f = some as := by
  simp only [asList?]
  induction as with
  | nil => rfl
  | cons a as ih =>
    obtain ⟨ha, has⟩ := List.forall_mem_cons.mp h
    simp [List.mapM_cons, ha, ih has]

end Json

/-! ## 2. Names, literals and operators -/

theorem Ty.decode?_encode {t : Ty} (h : t.Legible) : Ty.decode? t.encode = some t := by
  have hparse : Ty.parse t.descriptor = .ok t := by
    unfold parse descriptor
    rw [String.toList_ofList, ofChars_eq_ok_iff.mpr ⟨h, rfl⟩]
  simp [encode, decode?, Json.asText?, hparse, Except.toOption]

theorem MethodDesc.decode?_encode {d : MethodDesc} (h : d.Legible) :
    MethodDesc.decode? d.encode = some d := by
  simp [encode, decode?, Json.asText?, parse_descriptor h, Except.toOption]

theorem FieldRef.decode?_encode {f : FieldRef} (h : f.ty.Legible) :
    FieldRef.decode? f.encode = some f := by
  have hrecord := Json.record?_object [("owner", .text f.owner), ("name", .text f.name),
    ("ty", f.ty.encode)] (by simp)
  simp only [List.map_cons, List.map_nil] at hrecord
  simp [encode, decode?, hrecord, Json.asText?, Ty.decode?_encode h]

theorem decodeNamed?_name {α : Type} {all : List α} {name : α → String} (h : (all.map name).Nodup)
    {a : α} (ha : a ∈ all) : decodeNamed? all name (.text (name a)) = some a := by
  have hfind : ∀ {as : List α}, (as.map name).Nodup → a ∈ as →
      as.find? (fun b => name b == name a) = some a := by
    intro as
    induction as with
    | nil => exact fun _ h => absurd h List.not_mem_nil
    | cons b as ih =>
      intro hnodup hmem
      rw [List.map_cons, List.nodup_cons] at hnodup
      rcases List.mem_cons.mp hmem with rfl | hmem
      · simp
      · have hne : name b ≠ name a := fun heq => hnodup.1 (heq ▸ List.mem_map_of_mem hmem)
        rw [List.find?_cons_of_neg (by simpa using hne)]
        exact ih hnodup.2 hmem
  exact hfind h ha

theorem InvokeKind.decode?_encode (k : InvokeKind) : InvokeKind.decode? k.encode = some k :=
  decodeNamed?_name (by decide) (by cases k <;> decide)

theorem BinaryOp.decode?_encode (op : BinaryOp) : BinaryOp.decode? op.encode = some op :=
  decodeNamed?_name (by decide) (by cases op <;> decide)

theorem Cond.decode?_encode (c : Cond) : Cond.decode? c.encode = some c :=
  decodeNamed?_name (by decide) (by cases c <;> decide)

theorem MethodRef.decode?_encode {m : MethodRef} (h : m.desc.Legible) :
    MethodRef.decode? m.encode = some m := by
  have hrecord := Json.record?_object [("kind", m.kind.encode), ("owner", .text m.owner),
    ("name", .text m.name), ("desc", m.desc.encode)] (by simp)
  simp only [List.map_cons, List.map_nil] at hrecord
  simp [encode, decode?, hrecord, Json.asText?, InvokeKind.decode?_encode,
    MethodDesc.decode?_encode h]

/-- A literal that is stored as it is; a fraction may be written as another one or not at all. -/
def Constant.Storable : Constant → Prop
  | .float _ | .double _ => False
  | _ => True

theorem Constant.decode?_encode {c : Constant} (h : c.Storable) :
    Constant.decode? c.encode = some c := by
  cases c with
  | int v =>
    have hv : (Json.int v.toInt).asInt? Numeral.intBound = some v.toInt :=
      Json.asInt?_int v.le_toInt v.toInt_lt
    simp [encode, decode?, Json.tagged, Json.variant?, hv]
  | long v =>
    have hv : (Json.int v.toInt).asInt? Numeral.longBound = some v.toInt :=
      Json.asInt?_int v.le_toInt v.toInt_lt
    simp [encode, decode?, Json.tagged, Json.variant?, hv]
  | float | double => exact h.elim
  | null => rfl
  | str s => rfl

/-! ## 3. Hooks and instructions -/

theorem ClassConstant.decode?_encode {c : ClassConstant} (hclass : c.classId < labelBound)
    (hoffset : c.offset < placeBound) (hlength : c.length < placeBound) :
    ClassConstant.decode? c.encode = some c := by
  have hrecord := Json.record?_object [("class_id", .nat c.classId),
    ("offset", .nat c.offset), ("length", .nat c.length)] (by simp)
  simp only [List.map_cons, List.map_nil] at hrecord
  simp [encode, decode?, hrecord, Json.asNat?_nat hclass, Json.asNat?_nat hoffset,
    Json.asNat?_nat hlength]

namespace Hook

/-- A hook whose types can be told from their text and whose numbers fit where they are stored. -/
def Storable : Hook → Prop
  | constantPoint c => c.classId < labelBound ∧ c.offset < placeBound ∧ c.length < placeBound
  | arrayStoreWithPoint t => t.Legible
  | invocationSetArg n | invocationArgPoint n => n < slotBound
  | concatWithPoints args _ => ∀ t ∈ args, t.Legible
  | constantString classId offset => classId < labelBound ∧ offset < placeBound
  | _ => True

theorem decode?_tagged {tag : String} (h : bare.lookup tag = none) (p : Json) :
    decode? (.tagged tag p) = decodeLoaded? tag p := by
  simp [decode?, Json.tagged, Json.variant?, h]

theorem decode?_text {tag : String} {hk : Hook} (h : bare.lookup tag = some hk) :
    decode? (.text tag) = some hk := by
  simp [decode?, Json.variant?, h, Json.bare?]

theorem decode?_encode {h : Hook} (hs : h.Storable) : decode? h.encode = some h := by
  cases h with
  | constantPoint c =>
    refine (decode?_tagged (by rfl) _).trans ?_
    simp [decodeLoaded?, ClassConstant.decode?_encode hs.1 hs.2.1 hs.2.2]
  | elementPoint | invocationCalling | invocationReturnPoint | invocationReturning | stringEquals
    | arrayCopy | arrayClone => exact decode?_text (by rfl)
  | arrayStoreWithPoint t =>
    refine (decode?_tagged (by rfl) _).trans ?_
    simp [decodeLoaded?, Ty.decode?_encode hs]
  | fieldPoint key | setFieldPoint key | invocationCreate s | invocationStart s =>
    refine (decode?_tagged (by rfl) _).trans ?_
    rfl
  | invocationSetArg n | invocationArgPoint n =>
    refine (decode?_tagged (by rfl) _).trans ?_
    simp [decodeLoaded?, Json.asNat?_nat hs]
  | concatWithPoints args mask =>
    have hrecord := Json.record?_object [("args", .list (args.map Ty.encode)),
      ("mask", .text mask)] (by simp)
    simp only [List.map_cons, List.map_nil] at hrecord
    refine (decode?_tagged (by rfl) _).trans ?_
    have hargs := Json.asList?_map fun t ht => Ty.decode?_encode (hs t ht)
    simp [decodeLoaded?, hrecord, hargs, Json.asText?]
  | constantString classId offset =>
    have hrecord := Json.record?_object [("class_id", .nat classId),
      ("offset", .nat offset)] (by simp)
    simp only [List.map_cons, List.map_nil] at hrecord
    refine (decode?_tagged (by rfl) _).trans ?_
    simp [decodeLoaded?, hrecord, Json.asNat?_nat hs.1, Json.asNat?_nat hs.2]

end Hook

namespace Insn

/-- An instruction whose types can be told from their text and whose numbers fit where they are
stored. -/
def Storable : Insn → Prop
  | label l | goto l | ifZero _ l | ifCmp _ l | ifNull l | ifNonNull l | ifRefEq l | ifRefNe l =>
    l < labelBound
  | const c => c.Storable
  | load n | store n => n < localBound
  | arrayLoad t | arrayStore t | newArray t | binary _ t | ret t => t.Legible
  | getField f | putField f => f.ty.Legible
  | convert source target => source.Legible ∧ target.Legible
  | invoke m => m.desc.Legible
  | concat args => ∀ t ∈ args, t.Legible
  | hook h => h.Storable
  | nop | dup | dupX1 | dup2 | pop | swap | arrayLength => True

theorem decode?_tagged {tag : String} (h : bare.lookup tag = none) (p : Json) :
    decode? (.tagged tag p) = decodeLoaded? tag p := by
  simp [decode?, Json.tagged, Json.variant?, h]

theorem decode?_text {tag : String} {i : Insn} (h : bare.lookup tag = some i) :
    decode? (.text tag) = some i := by
  simp [decode?, Json.variant?, h, Json.bare?]

theorem decodeBranch?_encode {l : Nat} (c : Cond) (h : l < labelBound) :
    decodeBranch? (encodeBranch c l) = some (c, l) := by
  have hrecord := Json.record?_object [("cond", c.encode), ("target", .nat l)] (by simp)
  simp only [List.map_cons, List.map_nil] at hrecord
  simp [encodeBranch, decodeBranch?, hrecord, Cond.decode?_encode, Json.asNat?_nat h]

theorem decode?_encode {i : Insn} (hs : i.Storable) : decode? i.encode = some i := by
  cases i with
  | nop | dup | dupX1 | dup2 | pop | swap | arrayLength => exact decode?_text (by rfl)
  | label l | goto l | ifNull l | ifNonNull l | ifRefEq l | ifRefNe l | load n | store n =>
    refine (decode?_tagged (by rfl) _).trans ?_
    simp [decodeLoaded?, Json.asNat?_nat hs]
  | ifZero c l | ifCmp c l =>
    refine (decode?_tagged (by rfl) _).trans ?_
    simp [decodeLoaded?, decodeBranch?_encode c hs]
  | const c =>
    refine (decode?_tagged (by rfl) _).trans ?_
    simp [decodeLoaded?, Constant.decode?_encode hs]
  | arrayLoad t | arrayStore t | newArray t | ret t =>
    refine (decode?_tagged (by rfl) _).trans ?_
    simp [decodeLoaded?, Ty.decode?_encode hs]
  | getField f | putField f =>
    refine (decode?_tagged (by rfl) _).trans ?_
    simp [decodeLoaded?, FieldRef.decode?_encode hs]
  | binary op t =>
    have hrecord := Json.record?_object [("op", op.encode), ("ty", t.encode)] (by simp)
    simp only [List.map_cons, List.map_nil] at hrecord
    refine (decode?_tagged (by rfl) _).trans ?_
    simp [decodeLoaded?, hrecord, BinaryOp.decode?_encode, Ty.decode?_encode hs]
  | convert source target =>
    have hrecord := Json.record?_object [("from", source.encode), ("to", target.encode)]
      (by simp)
    simp only [List.map_cons, List.map_nil] at hrecord
    refine (decode?_tagged (by rfl) _).trans ?_
    simp [decodeLoaded?, hrecord, Ty.decode?_encode hs.1, Ty.decode?_encode hs.2]
  | invoke m =>
    refine (decode?_tagged (by rfl) _).trans ?_
    simp [decodeLoaded?, MethodRef.decode?_encode hs]
  | concat args =>
    have hargs := Json.asList?_map fun t ht => Ty.decode?_encode (hs t ht)
    refine (decode?_tagged (by rfl) _).trans ?_
    simp [decodeLoaded?, hargs]
  | hook h =>
    refine (decode?_tagged (by rfl) _).trans ?_
    simp [decodeLoaded?, Hook.decode?_encode hs]

end Insn

/-! ## 4. Methods and classes -/

/-- A method that can be stored: its counts have sixteen bits. -/
structure Method.Storable (m : Method) : Prop where
  desc : m.desc.Legible
  maxLocals : m.maxLocals < localBound
  maxStack : m.maxStack < localBound
  insns : ∀ i ∈ m.insns, i.Storable

theorem Method.decode?_encode {m : Method} (h : m.Storable) : Method.decode? m.encode = some m := by
  have hrecord := Json.record?_object [("owner", .text m.owner), ("name", .text m.name),
    ("desc", m.desc.encode), ("is_static", .bool m.isStatic), ("max_locals", .nat m.maxLocals),
    ("max_stack", .nat m.maxStack), ("insns", .list (m.insns.map Insn.encode))] (by simp)
  have hinsns := Json.asList?_map fun i hi => Insn.decode?_encode (h.insns i hi)
  simp only [List.map_cons, List.map_nil] at hrecord
  simp [encode, decode?, hrecord, Json.asText?, Json.asBool?, orElse?,
    MethodDesc.decode?_encode h.desc, Json.asNat?_nat h.maxLocals,
    Json.asNat?_nat h.maxStack, hinsns]

/-- A class that can be stored. -/
def Class.Storable (c : Class) : Prop := ∀ m ∈ c.methods, m.Storable

/-- **A class is read back** from the value it is stored as. -/
theorem Class.decode?_encode {c : Class} (h : c.Storable) : Class.decode? c.encode = some c := by
  have hrecord := Json.record?_object [("name", .text c.name),
    ("methods", .list (c.methods.map Method.encode))] (by simp)
  have hmethods := Json.asList?_map fun m hm => Method.decode?_encode (h m hm)
  simp only [List.map_cons, List.map_nil] at hrecord
  simp [encode, decode?, hrecord, Json.asText?, hmethods]

/-! ## 5. What is stored is plain -/

namespace Json

theorem plain_nat {bound n : Nat} (h : n < bound) (hbound : bound ≤ Numeral.wordBound) :
    (nat n).Plain :=
  .natural (Nat.lt_of_lt_of_le h hbound)

theorem plain_int {i : Int} (hlo : -(Numeral.longBound : Int) ≤ i) (hhi : i < Numeral.longBound) :
    (int i).Plain := by
  have hword : Numeral.longBound ≤ Numeral.wordBound := by decide
  unfold int
  split
  · exact .negative (by omega) (by omega)
  · exact .natural (by omega)

theorem plain_tagged {p : Json} (tag : String) (h : p.Plain) : (tagged tag p).Plain :=
  .object fun f hf => by
    obtain rfl := List.mem_singleton.mp hf
    exact h

theorem plain_map {α : Type} {g : α → Json} {as : List α} (h : ∀ a ∈ as, (g a).Plain) :
    (Json.list (as.map g)).Plain :=
  .list fun j hj => by
    obtain ⟨a, ha, rfl⟩ := List.mem_map.mp hj
    exact h a ha

end Json

open Json (Plain plain_nat plain_tagged plain_map)

theorem Constant.encode_plain {c : Constant} (h : c.Storable) : c.encode.Plain := by
  cases c with
  | int v =>
    have hbound : Numeral.intBound ≤ Numeral.longBound := by decide
    have hlo : -(Numeral.intBound : Int) ≤ v.toInt := v.le_toInt
    have hhi : v.toInt < (Numeral.intBound : Int) := v.toInt_lt
    exact plain_tagged _ (Json.plain_int (by omega) (by omega))
  | long v => exact plain_tagged _ (Json.plain_int v.le_toInt v.toInt_lt)
  | float | double => exact h.elim
  | null => exact .text _
  | str s => exact plain_tagged _ (.text s)

theorem FieldRef.encode_plain (f : FieldRef) : f.encode.Plain :=
  .object (by simp [Ty.encode, Plain.text])

theorem MethodRef.encode_plain (m : MethodRef) : m.encode.Plain :=
  .object (by simp [InvokeKind.encode, MethodDesc.encode, Plain.text])

theorem Hook.encode_plain {h : Hook} (hs : h.Storable) : h.encode.Plain := by
  have hlabel : labelBound ≤ Numeral.wordBound := by decide
  have hslot : slotBound ≤ Numeral.wordBound := by decide
  cases h with
  | constantPoint c =>
    exact plain_tagged _ (.object (by
      simp [plain_nat hs.1 hlabel, plain_nat hs.2.1 (Nat.le_refl _),
        plain_nat hs.2.2 (Nat.le_refl _)]))
  | elementPoint | invocationCalling | invocationReturnPoint | invocationReturning | stringEquals
    | arrayCopy | arrayClone => exact .text _
  | arrayStoreWithPoint | fieldPoint | setFieldPoint | invocationCreate | invocationStart =>
    exact plain_tagged _ (.text _)
  | invocationSetArg n | invocationArgPoint n => exact plain_tagged _ (plain_nat hs hslot)
  | concatWithPoints args mask =>
    have hargs : (Json.list (args.map Ty.encode)).Plain := plain_map fun t _ => .text _
    exact plain_tagged _ (.object (by simp [Plain.text, hargs]))
  | constantString classId offset =>
    exact plain_tagged _ (.object (by simp [plain_nat hs.1 hlabel, plain_nat hs.2 (Nat.le_refl _)]))

theorem Insn.encode_plain {i : Insn} (hs : i.Storable) : i.encode.Plain := by
  have hlabel : labelBound ≤ Numeral.wordBound := by decide
  have hlocal : localBound ≤ Numeral.wordBound := by decide
  cases i with
  | nop | dup | dupX1 | dup2 | pop | swap | arrayLength => exact .text _
  | label l | goto l | ifNull l | ifNonNull l | ifRefEq l | ifRefNe l =>
    exact plain_tagged _ (plain_nat hs hlabel)
  | load n | store n => exact plain_tagged _ (plain_nat hs hlocal)
  | ifZero c l | ifCmp c l =>
    exact plain_tagged _ (.object (by simp [Cond.encode, Plain.text, plain_nat hs hlabel]))
  | const c => exact plain_tagged _ (Constant.encode_plain hs)
  | arrayLoad t | arrayStore t | newArray t | ret t => exact plain_tagged _ (.text _)
  | getField f | putField f => exact plain_tagged _ f.encode_plain
  | binary op t => exact plain_tagged _ (.object (by simp [BinaryOp.encode, Ty.encode, Plain.text]))
  | convert source target => exact plain_tagged _ (.object (by simp [Ty.encode, Plain.text]))
  | invoke m => exact plain_tagged _ m.encode_plain
  | concat args => exact plain_tagged _ (plain_map fun t _ => .text _)
  | hook h => exact plain_tagged _ (Hook.encode_plain hs)

theorem Method.encode_plain {m : Method} (h : m.Storable) : m.encode.Plain := by
  have hlocal : localBound ≤ Numeral.wordBound := by decide
  have hinsns := plain_map fun i hi => Insn.encode_plain (h.insns i hi)
  exact .object (by
    simp [Plain.text, Plain.bool, MethodDesc.encode, plain_nat h.maxLocals hlocal,
      plain_nat h.maxStack hlocal, hinsns])

theorem Class.encode_plain {c : Class} (h : c.Storable) : c.encode.Plain := by
  have hmethods := plain_map fun m hm => Method.encode_plain (h m hm)
  exact .object (by simp [Plain.text, hmethods])

/-! ## 6. Files of classes -/

/-- **A class is read back** from the text it is stored as. -/
theorem Class.parse?_pretty {c : Class} (h : c.Storable) :
    (Json.parse? c.encode.pretty).bind Class.decode? = some c := by
  rw [(Class.encode_plain h).parse?_pretty]
  exact Class.decode?_encode h

theorem Surroundings.loadClass_stored {s : Surroundings} {path : String} {c : Class}
    (h : c.Storable) (hfile : s.file path = some c.encode.pretty) : s.loadClass path = .ok c := by
  simp only [loadClass, read, hfile, Class.parse?_pretty h]

/-- What goes on goes on with the outcome. -/
theorem Logged.outcome_bind {α β : Type} (x : Logged α) (f : α → Logged β) :
    (x >>= f).outcome = x.outcome.bind fun a => (f a).outcome :=
  outcome_andThen x f

theorem Logged.outcome_pure {α : Type} (a : α) : (pure a : Logged α).outcome = .ok a := rfl

namespace Tool

/-- Weaving a class for a file writes the class that it is woven to. -/
theorem weave_file {s : Surroundings} {o : WeaveOptions} {c woven : Class} {report : WeaveReport}
    {store : Store} (hload : s.loadClass o.input = .ok c)
    (hwoven : (weaveFresh s o.config c).outcome = .ok (woven, report, store)) :
    ∃ effects, (weave s o).outcome = .ok effects ∧
      effects.file = o.output.map fun path => (path, woven.encode.pretty) := by
  unfold weave
  simp only [Logged.outcome_bind, Logged.outcome_pure, Logged.quiet, hload, hwoven, Except.bind]
  exact ⟨_, rfl, rfl⟩

/-- Running a class file as it is runs the class in it. -/
theorem runFile_asItIs {s : Surroundings} {o : RunOptions} {c : Class}
    (hload : s.loadClass o.input = .ok c) (hasItIs : o.noWeave = true) :
    (runFile s o).outcome =
      (argumentValues (.empty (.ofEnvironment s.environment)) 0 o.args).bind
        fun (values, observed, world) =>
          runWith (.ofEnvironment s.environment) c o values observed world := by
  unfold runFile prepare
  simp only [Logged.outcome_bind, Logged.outcome_pure, Logged.quiet, hload, hasItIs,
    Except.bind, if_true]
  rfl

end Tool

/-! ## 7. Stored classes -/

/-- **A class that is woven can be stored and read back**, field by field and instruction by
instruction.  Whatever class the command weaves to, it writes; in any surroundings where that text
is a file, the file is that class; and running the file as it is runs the class. -/
theorem Class.stored_exact (c : Class) (h : c.Storable) :
    Class.decode? c.encode = some c ∧
    (∀ (s : Surroundings) (o : WeaveOptions) (given : Class) (report : WeaveReport) (store : Store),
      s.loadClass o.input = .ok given →
      (Tool.weaveFresh s o.config given).outcome = .ok (c, report, store) →
      ∃ effects, (Tool.weave s o).outcome = .ok effects ∧
        effects.file = o.output.map fun path => (path, c.encode.pretty)) ∧
    ∀ (s : Surroundings) (path : String), s.file path = some c.encode.pretty →
      s.loadClass path = .ok c ∧
      ∀ o : RunOptions, o.input = path → o.noWeave = true → (Tool.runFile s o).outcome =
        (Tool.argumentValues (.empty (.ofEnvironment s.environment)) 0 o.args).bind
          fun (values, observed, world) =>
            Tool.runWith (.ofEnvironment s.environment) c o values observed world := by
  refine ⟨decode?_encode h, fun s o given report store hload hwoven => Tool.weave_file hload hwoven,
    fun s path hfile => ?_⟩
  have hload := Surroundings.loadClass_stored h hfile
  exact ⟨hload, fun o hinput hasItIs => Tool.runFile_asItIs (hinput ▸ hload) hasItIs⟩

/-- Literals at their bounds, a text that needs every kind of escape, types and hooks. -/
def everyKind : Class :=
  ⟨"demo/Kinds",
    [⟨"demo/Kinds", "all", ⟨[.array (.array .byte), .object "[I)"], .void⟩, false, 65535, 9, [.nop,
    .label 4294967295, .const (.int Int32.minValue), .const (.long Int64.minValue), .const .null,
      .const (.str "a \" \\ / \n\r\t\x01\x7f \u00e9"), .load 65535, .arrayStore .char,
      .getField ⟨"demo/Kinds", "f", .array (.object "demo/Kinds")⟩, .binary .ushr .long,
      .convert .int .long, .invoke ⟨.special, "demo/Kinds", "g", ⟨[.boolean], .object "T"⟩⟩,
      .concat [.int, .string], .ifCmp .le 4294967295,
      .hook (.constantPoint ⟨4294967295, 18446744073709551615, 0⟩),
      .hook (.arrayStoreWithPoint .byte), .hook (.invocationSetArg 255),
      .hook (.concatWithPoints [.string, .int] "T-"), .hook .arrayClone, .ret .void]⟩]⟩

theorem everyKind_stored : everyKind.Storable ∧ Class.decode? everyKind.encode = some everyKind ∧
    (⟨fun _ => some everyKind.encode.pretty, fun _ => none⟩ : Surroundings).loadClass "kinds.json" =
      .ok everyKind := by
  have hcall : MethodDesc.Legible ⟨[.boolean], .object "T"⟩ := by decide
  have h : everyKind.Storable := by
    refine List.forall_mem_singleton.mpr ⟨by decide, by decide, by decide, ?_⟩
    simp [Insn.Storable, Hook.Storable, Constant.Storable, Ty.Legible, Ty.string,
      Ty.stringClass, hcall, labelBound, localBound, slotBound, placeBound,
      Numeral.wordBound, twoTo]
  obtain ⟨hvalue, -, hfile⟩ := Class.stored_exact everyKind h
  exact ⟨h, hvalue, (hfile _ "kinds.json" rfl).1⟩

end Provenance
