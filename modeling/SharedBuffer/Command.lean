import SharedBuffer.Arena
import SharedBuffer.Dump
import SharedBuffer.Hex

/-!
The requests that an arena answers, as data: questions to a buffer, changes of one, new handles,
transfers between two, and the work with storages, pools and allocators. A run is a sequence of
commands; a command that fails does not stop it.
-/

namespace SharedBuffer

structure BufferInfo where
  kind : StorageKind
  autoExpand : Bool
  readOnly : Bool
  readable : Nat
  writable : Nat
  maxWritable : Nat
  released : Bool
  description : String
  deriving DecidableEq, Repr

def Buffer.info (b : Buffer) : BufferInfo :=
  ⟨b.group.kind, b.handle.autoExpand, b.handle.readOnly, b.handle.readable, b.handle.writable,
    b.handle.maxWritable, b.group.isReleased, b.describe⟩

inductive Answer where
  | done
  | flag (b : Bool)
  | number (n : Nat)
  | position (i : Option Nat)
  | byte (b : UInt8)
  | bytes (bs : Bytes)
  | text (cs : List Char)
  | line (cs : Option (List Char))
  | scalar (s : Scalar)
  | order (o : Ordering)
  | reservation (r : Buffer.Reservation)
  | info (i : BufferInfo)
  | visit (stop : Option Nat) (seen : Bytes)
  | visitAll (stop : Option Nat) (counts : List Nat)
  | loaded (t : Buffer.Transferred)
  | stored (t : Buffer.Transferred)
  | storedFile (t : Buffer.Transferred)
  | storage (s : Storage)
  | strategy (s : PoolingStrategy)
  | statistics (s : Pool.Statistics)
  | allocator (config : Config) (description : String)
  deriving DecidableEq, Repr

inductive Extent where
  | within (index length : Nat)
  | readable
  deriving DecidableEq, Repr

inductive Query where
  | info
  | isReadable (n : Nat)
  | isWritable (n : Nat)
  | getBytes (index length : Nat)
  | wholeArray
  | content
  | arrayOffset
  | count
  | getScalar (type : ScalarType) (index : Nat)
  | getString (index length : Nat) (charset : Charset)
  | contentString (charset : Charset)
  | findByte (start stop : Nat) (value : UInt8)
  | findFirst (start stop : Nat) (pattern : Bytes)
  | findLast (start stop : Nat) (pattern : Bytes)
  | distanceTo (value : UInt8)
  | distanceWithin (n : Nat) (value : UInt8)
  | distanceIn (index length : Nat) (value : UInt8)
  | visit (direction : Buffer.Direction) (extent : Extent) (processor : Processor)
  | visitAll (index length : Nat) (processors : List Processor)
  | dump (title : List Char)
  | contentHex (codec : Hex.Codec)

namespace Query

def scan (d : Buffer.Direction) (p : Processor) (b : Buffer) :
    Extent → Except Fault (Visit Processor)
  | .within index length => b.visitBytes d Processor.feed p index length
  | .readable => b.visitReadable d Processor.feed p

def answer (q : Query) (b : Buffer) : Except Fault Answer :=
  match q with
  | .info => .ok (.info b.info)
  | .isReadable n => .ok (.flag (n ≤ b.handle.readable))
  | .isWritable n => .ok (.flag (n ≤ b.handle.writable))
  | .getBytes index length => .bytes <$> b.read index length
  | .wholeArray => .bytes <$> b.wholeArray
  | .content => .bytes <$> b.content
  | .arrayOffset => .number <$> b.arrayOffset
  | .count => .ok (.number b.group.count)
  | .getScalar type index => .scalar <$> b.getScalar type index
  | .getString index length charset => .text <$> b.getString index length charset
  | .contentString charset => .text <$> b.contentString charset
  | .findByte start stop value => .position <$> b.findByte start stop value
  | .findFirst start stop pattern => .position <$> b.findFirst start stop pattern
  | .findLast start stop pattern => .position <$> b.findLast start stop pattern
  | .distanceTo value => .position <$> b.distanceTo value
  | .distanceWithin n value => .position <$> b.distanceWithin n value
  | .distanceIn index length value => .position <$> b.distanceIn index length value
  | .visit direction extent processor =>
    (fun v => .visit v.stop v.seen) <$> scan direction processor b extent
  | .visitAll index length processors =>
    (fun v => .visitAll v.stop (List.replicate processors.length v.seen.length)) <$>
      b.visitAll Processor.feed processors index length
  | .dump title => (fun bs => .text (Dump.render title bs)) <$> b.content
  | .contentHex codec => (fun bs => .text (codec.encode bs)) <$> b.content

end Query

inductive Change where
  | setAutoExpand (value : Bool)
  | clear
  | markReader
  | markWriter
  | resetReader
  | resetWriter
  | setReader (index : Nat)
  | setWriter (index : Nat)
  | setIndexes (reader writer : Nat)
  | skip (n : Nat)
  | reserve (n : Nat)
  | tryReserve (n : Nat)
  | changeCapacity (n : Nat)
  | compact
  | compactLazily
  | consume (n : Nat)
  | consumeInto (n room : Nat)
  | setBytes (index : Nat) (data : Bytes)
  | setZero (index length : Nat)
  | append (data : Bytes)
  | appendZero (n : Nat)
  | appendAll (chunks : List Bytes)
  | overwriteArray (data : Bytes)
  | overwriteWritable (data : Bytes)
  | retain (n : Nat)
  | release (n : Nat)
  | setScalar (index : Nat) (value : Scalar)
  | readScalar (type : ScalarType)
  | writeScalar (value : Scalar)
  | setString (index : Nat) (text : List Char) (charset : Charset)
  | readString (n : Nat) (charset : Charset)
  | writeString (text : List Char) (charset : Charset)
  | writeLine (text : List Char)
  | readLine
  | load (script : List Stream.Supply)
  | loadLength (n : Nat) (script : List Stream.Supply)
  | loadFile (content : Option Bytes)
  | store (script : List Stream.Acceptance)
  | storeFile (reachable : Bool)
  | readSome (n : Nat)
  | readRest
  | writeSome (data : Bytes)
  | writeAll (data : Bytes)
  | flush
  deriving DecidableEq, Repr

namespace Change

open Arena (lift)

def update (f : Buffer → Except Fault Buffer) : Action Failure Buffer Answer := do
  lift (Action.update f)
  return .done

def move (f : Cursor → Cursor) : Action Failure Buffer Answer := do
  Action.modify (Buffer.moveCursor f)
  return .done

def run : Change → Action Failure Buffer Answer
  | .setAutoExpand value => do
    Action.modify (Buffer.setAutoExpand value)
    return .done
  | .clear => move Cursor.clear
  | .markReader => move Cursor.markReader
  | .markWriter => move Cursor.markWriter
  | .resetReader => update Buffer.resetReader
  | .resetWriter => update Buffer.resetWriter
  | .setReader index => update (Buffer.setReader index)
  | .setWriter index => update (Buffer.setWriter index)
  | .setIndexes reader writer => update (Buffer.setIndexes reader writer)
  | .skip n => update (Buffer.skip n)
  | .reserve n => do
    lift (Buffer.reserve n)
    return .done
  | .tryReserve n => .reservation <$> lift (Buffer.tryReserve n)
  | .changeCapacity n => do
    lift (Buffer.changeCapacity n)
    return .done
  | .compact => update Buffer.compact
  | .compactLazily => update Buffer.compactLazily
  | .consume n => .bytes <$> lift (Buffer.consume n)
  | .consumeInto n room => .bytes <$> lift (Buffer.consumeInto n room)
  | .setBytes index data => update (Buffer.write index data)
  | .setZero index length => update (Buffer.setZero index length)
  | .append data => do
    lift (Buffer.append data)
    return .done
  | .appendZero n => do
    lift (Buffer.appendZero n)
    return .done
  | .appendAll chunks => .number <$> lift (Buffer.appendAll chunks)
  | .overwriteArray data => do
    let b ← Action.current
    lift (Action.update (Buffer.overwriteArray data))
    return .number b.handle.capacity
  | .overwriteWritable data => do
    let b ← Action.current
    lift (Action.update (Buffer.overwriteWritable data))
    return .number b.handle.writable
  | .retain n => update (Buffer.retain n)
  | .release n => .flag <$> lift (Buffer.release n)
  | .setScalar index value => update (Buffer.setScalar index value)
  | .readScalar type => .scalar <$> lift (Buffer.readScalar type)
  | .writeScalar value => do
    lift (Buffer.writeScalar value)
    return .done
  | .setString index text charset => do
    lift (Action.update (Buffer.setString index text charset))
    return .number (charset.encode text).length
  | .readString n charset => .text <$> lift (Buffer.readString n charset)
  | .writeString text charset => .number <$> lift (Buffer.writeString text charset)
  | .writeLine text => .number <$> lift (Buffer.writeLine text)
  | .readLine => .line <$> lift Buffer.readLine
  | .load script =>
    (fun (t, _) => .loaded t) <$> Action.mapError (fun (e, _) => .loading e.fault e.asked)
      (Buffer.load Stream.Source.reader (.ofScript script))
  | .loadLength n script =>
    (fun (t, _) => .loaded t) <$> Action.mapError (fun (e, _) => .loading e.fault e.asked)
      (Buffer.loadLength n Stream.Source.reader (.ofScript script))
  | .loadFile content =>
    (fun t => .number t.count) <$>
      Action.mapError (fun e => .fault e.fault) (Buffer.loadFile content)
  | .store script =>
    .stored <$> Action.mapError (fun e => .storing e.fault e.asked e.taken) (Buffer.store script)
  | .storeFile reachable =>
    .storedFile <$> Action.mapError (fun e => .fault e.fault) (Buffer.storeFile reachable)
  | .readSome n => .bytes <$> Action.mapError .stream (Buffer.readSome n)
  | .readRest => .bytes <$> Action.mapError .stream Buffer.readRest
  | .writeSome data => .number <$> Action.mapError .stream (Buffer.writeSome data)
  | .writeAll data => do
    Action.mapError .stream (Buffer.writeAll data)
    return .done
  | .flush => return .done

end Change

inductive Derivation where
  | copy (extent : Extent)
  | slice (extent : Extent)
  | duplicate
  | retainedSlice (extent : Extent)
  | retainedDuplicate
  | takeSlice (n : Nat)
  | takeRetainedSlice (n : Nat)
  | takeCopy (n : Nat)
  | readOnlyView
  | whole
  deriving DecidableEq, Repr

namespace Derivation

def place (b : Buffer) : Extent → Nat × Nat
  | .within index length => (index, length)
  | .readable => (b.handle.reader, b.handle.readable)

def run : Derivation → Action Fault Buffer (Handle × Option Storage)
  | .copy extent => do
    let b ← Action.current
    let made ← Buffer.copy (place b extent).1 (place b extent).2
    return (made.1, some made.2)
  | .slice extent => do
    let h ← Action.ask fun b => b.slice (place b extent).1 (place b extent).2
    return (h, none)
  | .duplicate => do
    let h ← Action.ask Buffer.duplicate
    return (h, none)
  | .retainedSlice extent => do
    let b ← Action.current
    let h ← Buffer.retainedSlice (place b extent).1 (place b extent).2
    return (h, none)
  | .retainedDuplicate => do
    let h ← Buffer.retainedDuplicate
    return (h, none)
  | .takeSlice n => do
    let h ← Buffer.takeSlice n
    return (h, none)
  | .takeRetainedSlice n => do
    let h ← Buffer.takeRetainedSlice n
    return (h, none)
  | .takeCopy n => do
    let made ← Buffer.takeCopy n
    return (made.1, some made.2)
  | .readOnlyView => do
    let h ← Action.ask Buffer.readOnlyView
    return (h, none)
  | .whole => do
    let h ← Action.ask Buffer.whole
    return (h, none)

end Derivation

inductive AllocatorRequest where
  | usual
  | sized (capacity : Nat)
  | bounded (capacity maxCapacity : Nat)
  | ofKind (kind : StorageKind) (capacity : Nat)
  | exact (kind : StorageKind) (capacity maxCapacity : Nat)
  | copied (data : Bytes)
  | adopted (data : Bytes)
  deriving DecidableEq, Repr

inductive Making where
  | allocate (capacity maxCapacity : Nat)
  | adopt (data : Bytes)
  | request (allocator : String) (what : AllocatorRequest)
  deriving DecidableEq, Repr

namespace Making

def fill (al : Allocator) : AllocatorRequest → Action Failure Arena Member
  | .usual =>
    Arena.allocate al.pool al.config.storageKind al.config.initialCapacity al.config.maxCapacity
      al.config.autoExpand
  | .sized capacity =>
    Arena.allocate al.pool al.config.storageKind capacity al.config.maxCapacity
      al.config.autoExpand
  | .bounded capacity maxCapacity =>
    Arena.allocate al.pool al.config.storageKind capacity maxCapacity al.config.autoExpand
  | .ofKind kind capacity =>
    Arena.allocate al.pool kind capacity al.config.maxCapacity al.config.autoExpand
  | .exact kind capacity maxCapacity =>
    Arena.allocate al.pool kind capacity maxCapacity al.config.autoExpand
  | .copied data =>
    Arena.allocateCopy al.pool al.config.storageKind data (max al.config.maxCapacity data.length)
      al.config.autoExpand
  | .adopted data => Arena.adopt data al.config.autoExpand

def run : Making → Action Failure Arena Member
  | .allocate capacity maxCapacity => Arena.allocateAlone capacity maxCapacity
  | .adopt data => Arena.adopt data true
  | .request allocator what => do
    let al ← Arena.require Arena.allocators allocator
    fill al what

end Making

inductive Exchange where
  | getBytesTo (index otherIndex length : Nat)
  | setBytesFrom (index otherIndex length : Nat)
  | readInto (n : Nat)
  | writeFrom (n : Nat)
  | equals
  | compare
  deriving DecidableEq, Repr

namespace Exchange

def answer (name other : String) : Exchange → Action Failure Arena Answer
  | .getBytesTo index otherIndex length => do
    Arena.copyBetween name other index otherIndex length
    return .done
  | .setBytesFrom index otherIndex length => do
    Arena.copyBetween other name otherIndex index length
    return .done
  | .readInto n => do
    Arena.pour name other n
    return .done
  | .writeFrom n => do
    Arena.pour other name n
    return .done
  | .equals => do
    let o ← Action.ask (Arena.buffer other)
    let b ← Action.ask (Arena.buffer name)
    .flag <$> Arena.lift (Action.ask fun _ => b.sameContent o)
  | .compare => do
    let o ← Action.ask (Arena.buffer other)
    let b ← Action.ask (Arena.buffer name)
    .order <$> Arena.lift (Action.ask fun _ => b.compareContent o)

def compares : Exchange → Bool
  | .equals | .compare => true
  | _ => false

/-- Both buffers must be there, the other one is looked for first, and be two unless they are only
compared. -/
def run (name other : String) (x : Exchange) : Action Failure Arena Answer := do
  let _ ← Action.ask (Arena.buffer other)
  let _ ← Action.ask (Arena.buffer name)
  if name = other ∧ !x.compares then Action.fail (.unknownName name) else answer name other x

end Exchange

inductive StoreRequest where
  | get (index : Nat)
  | set (index : Nat) (value : UInt8)
  | readRange (index length : Nat)
  | writeRange (index : Nat) (data : Bytes)
  | fill (index length : Nat) (value : UInt8)
  | moveRange (src length dest : Nat)
  | inspect
  deriving DecidableEq, Repr

namespace StoreRequest

def update (f : Storage → Except Fault Storage) : Action Fault Storage Answer := do
  Action.update f
  return .done

def run : StoreRequest → Action Fault Storage Answer
  | .get index => do
    let bs ← Action.ask fun s => s.readRange index 1
    return .byte (bs.headD 0)
  | .set index value => update fun s => s.writeRange index [value]
  | .readRange index length => .bytes <$> Action.ask fun s => s.readRange index length
  | .writeRange index data => update fun s => s.writeRange index data
  | .fill index length value => update fun s => s.fill index length value
  | .moveRange src length dest => update fun s => s.moveRange src length dest
  | .inspect => .storage <$> Action.current

end StoreRequest

inductive Command where
  | make (what : Making) (target : String)
  | drop (name : String)
  | ask (name : String) (query : Query)
  | change (name : String) (change : Change)
  | derive (name : String) (derivation : Derivation) (target : String)
  | exchange (name other : String) (exchange : Exchange)
  | storeNew (kind : StorageKind) (capacity maxCapacity : Nat) (target : String)
  | storeAdopt (data : Bytes) (maxCapacity : Nat) (target : String)
  | storeResize (store : String) (capacity : Nat) (target : String)
  | store (store : String) (request : StoreRequest)
  | poolNew (slots : Option Nat) (target : String)
  | poolLend (pool : String) (kind : StorageKind) (capacity maxCapacity : Nat) (target : String)
  | poolRelend (pool store : String) (capacity : Nat) (target : String)
  | poolTakeBack (pool store : String)
  | poolShrink (pool : String)
  | poolStatistics (pool : String)
  | poolStrategy (pool : String)
  | allocatorNew (settings : List (String × Setting)) (target : String)
  | allocatorOnPool (pool : String) (settings : List (String × Setting)) (target : String)
  | allocatorDefault (target : String)
  | allocatorClone (allocator target : String)
  | allocatorInfo (allocator : String)
  | allocatorStatistics (allocator : String)
  | allocatorShrink (allocator : String)

namespace Command

open Arena

def putStore (target : String) (s : Storage) : Action Failure Arena Answer := do
  Action.modify fun a => { a with stores := a.stores.put target s }
  return .done

def putAllocator (target : String) (al : Allocator) : Action Failure Arena Answer := do
  Action.modify fun a => { a with allocators := a.allocators.put target al }
  return .done

def onStore (name : String) (x : Action Fault Storage Answer) : Action Failure Arena Answer := do
  let s ← require stores name
  Action.zoom (fun _ => s) (fun s a => { a with stores := a.stores.put name s }) (lift x)

/-- A handle made by a buffer joins its group, or founds one on the storage that came with it. -/
def enrolDerived (name target : String) (made : Handle × Option Storage) :
    Action Failure Arena Unit := do
  match made.2 with
  | none =>
    let m ← require buffers name
    enrol target ⟨m.group, made.1⟩
  | some s =>
    let m ← foundCopy name made.1 s
    enrol target m

def run : Command → Action Failure Arena Answer
  | .make what target => do
    let m ← what.run
    enrol target m
    return .done
  | .drop name => do
    Arena.drop name
    return .done
  | .ask name query => onBuffer name (lift (Action.ask query.answer))
  | .change name c => onBuffer name c.run
  | .derive name derivation target => do
    let made ← onBuffer name (lift derivation.run)
    enrolDerived name target made
    return .done
  | .exchange name other x => x.run name other
  | .storeNew kind capacity maxCapacity target => do
    let s ← lift (Action.ask fun a => Storage.create a.system kind capacity maxCapacity)
    putStore target s
  | .storeAdopt data maxCapacity target => do
    let s ← lift (Action.ask fun _ => Storage.adopt data maxCapacity)
    putStore target s
  | .storeResize name capacity target => do
    let s ← require stores name
    let resized ← lift (Action.ask fun a => s.resize a.system capacity)
    putStore target resized
  | .store name request => onStore name request.run
  | .poolNew slots target => do
    let i ← addPool (.withSlots slots)
    Action.modify fun a => { a with poolNames := a.poolNames.put target i }
    return .done
  | .poolLend pool kind capacity maxCapacity target => do
    let i ← require poolNames pool
    let s ← onPoolAt i (Pool.lend kind capacity maxCapacity)
    putStore target s
  | .poolRelend pool name capacity target => do
    let s ← require stores name
    let i ← require poolNames pool
    let moved ← onPoolAt i (Pool.relend s capacity)
    putStore target moved
  | .poolTakeBack pool name => do
    let i ← require poolNames pool
    let s ← require stores name
    Action.modify fun a => { a with stores := a.stores.erase name }
    onPoolAt i (Pool.takeBack s)
    return .done
  | .poolShrink pool => do
    let i ← require poolNames pool
    .number <$> onPoolAt i Pool.shrink
  | .poolStatistics pool => do
    let i ← require poolNames pool
    .statistics <$> Action.ask fun a => .ok (a.poolAt i).statistics
  | .poolStrategy pool => do
    let i ← require poolNames pool
    .strategy <$> Action.ask fun a => .ok (a.poolAt i).strategy
  | .allocatorNew settings target => do
    let config ← Action.ask fun _ => allocatorOf settings
    let i ← addPool (.ofStrategy config.pooling)
    putAllocator target ⟨config, i⟩
  | .allocatorOnPool pool settings target => do
    let i ← require poolNames pool
    let config ← Action.ask fun _ => allocatorOf settings
    putAllocator target ⟨config, i⟩
  | .allocatorDefault target => do
    let i ← addPool .plain
    putAllocator target ⟨{}, i⟩
  | .allocatorClone allocator target => do
    let al ← require allocators allocator
    putAllocator target al
  | .allocatorInfo allocator => do
    let al ← require allocators allocator
    .allocator al.config <$> Action.ask fun a => .ok (a.describeAllocator al)
  | .allocatorStatistics allocator => do
    let al ← require allocators allocator
    .statistics <$> Action.ask fun a => .ok (a.poolAt al.pool).statistics
  | .allocatorShrink allocator => do
    let al ← require allocators allocator
    .number <$> onPoolAt al.pool Pool.shrink

end Command

/-!
Sizes are words, and what a command brings along lies in memory. Only the sizes that a buffer is
founded with or a storage is exchanged for, the bytes that are taken over and the texts that are
written need to be bounded; the others are checked by the operations themselves.
-/

namespace AllocatorRequest

def Fits : AllocatorRequest → Prop
  | .bounded _ maxCapacity | .exact _ _ maxCapacity => maxCapacity ≤ Word.largest
  | .copied data | .adopted data => data.length ≤ Word.longest
  | _ => True

instance : (r : AllocatorRequest) → Decidable r.Fits
  | .bounded _ m | .exact _ _ m => inferInstanceAs (Decidable (m ≤ Word.largest))
  | .copied data | .adopted data => inferInstanceAs (Decidable (data.length ≤ Word.longest))
  | .usual | .sized _ | .ofKind .. => inferInstanceAs (Decidable True)

end AllocatorRequest

namespace Making

def Fits : Making → Prop
  | .allocate _ maxCapacity => maxCapacity ≤ Word.largest
  | .adopt data => data.length ≤ Word.longest
  | .request _ what => what.Fits

instance : (what : Making) → Decidable what.Fits
  | .allocate _ m => inferInstanceAs (Decidable (m ≤ Word.largest))
  | .adopt data => inferInstanceAs (Decidable (data.length ≤ Word.longest))
  | .request _ what => inferInstanceAs (Decidable what.Fits)

end Making

namespace Change

def Fits : Change → Prop
  | .writeString text _ | .writeLine text => (Text.Utf8.encode text).length ≤ Word.longest
  | _ => True

instance (c : Change) : Decidable c.Fits := by cases c <;> (dsimp only [Fits]; infer_instance)

end Change

namespace Command

def Fits : Command → Prop
  | .make what _ => what.Fits
  | .change _ c => c.Fits
  | .storeAdopt data _ _ => data.length ≤ Word.longest
  | .poolRelend _ _ capacity _ => capacity ≤ Word.largest
  | _ => True

instance (c : Command) : Decidable c.Fits := by cases c <;> (dsimp only [Fits]; infer_instance)

end Command

namespace Arena

def after (a : Arena) (commands : List Command) : Arena :=
  commands.foldl (fun a c => (c.run a).state) a

def replies (a : Arena) : List Command → List (Except Failure Answer × List Event)
  | [] => []
  | c :: cs => ((c.run a).result, (c.run a).events) :: replies (c.run a).state cs

def Reachable (a : Arena) : Prop :=
  ∃ (sys : System) (commands : List Command),
    (∀ c ∈ commands, c.Fits) ∧ a = after { system := sys } commands

theorem reachable_empty (sys : System) : Reachable { system := sys } := ⟨sys, [], by simp, rfl⟩

theorem Reachable.run {a : Arena} (h : Reachable a) {c : Command} (hc : c.Fits) :
    Reachable (c.run a).state := by
  obtain ⟨sys, commands, hfits, rfl⟩ := h
  refine ⟨sys, commands ++ [c], ?_, by simp [after, List.foldl_append]⟩
  intro d hd
  rcases List.mem_append.1 hd with hd | hd
  · exact hfits d hd
  · rw [List.mem_singleton.1 hd]
    exact hc

theorem Reachable.induct {P : Arena → Prop} (empty : ∀ sys, P { system := sys })
    (step : ∀ a c, Reachable a → c.Fits → P a → P (Command.run c a).state) {a : Arena}
    (h : Reachable a) : P a := by
  obtain ⟨sys, commands, hfits, rfl⟩ := h
  have aux : ∀ (cs : List Command) (a : Arena), (∀ c ∈ cs, c.Fits) → Reachable a → P a →
      P (after a cs) := by
    intro cs
    induction cs with
    | nil => exact fun a _ _ ha => ha
    | cons c cs ih =>
      intro a hcs hr ha
      have hc := hcs c List.mem_cons_self
      exact ih _ (fun d hd => hcs d (List.mem_cons_of_mem _ hd)) (hr.run hc) (step a c hr hc ha)
  exact aux commands _ hfits (reachable_empty sys) (empty sys)

end Arena

end SharedBuffer
