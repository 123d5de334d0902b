import CoolBackend.Cbor.Parse
import CoolBackend.Proofs.Runs
import Mathlib.Data.List.Induction
import Mathlib.Tactic.IntervalCases
import Mathlib.Tactic.Ring

/-!
What is written in canonical form is read back as it was, or refused for its size. The reader keeps
open containers on a stack, so the statement is about the bytes of one item in front of any others,
with any containers open: reading goes on as if the item had been delivered to the innermost
container, unless a bound is exceeded.
-/
namespace CoolBackend.Cbor

theorem takeBytes_append (content done rest : Bytes) :
    takeBytes content.length done (content ++ rest) = .ok (done.reverse ++ content,rest) := by
  induction content generalizing done with
  | nil => simp [takeBytes]
  | cons b content ih => simp [takeBytes,ih]

theorem length_bigEndian (width n : Nat) : (bigEndian width n).length = width := by
  simp [bigEndian]

theorem bigEndian_succ (width n : Nat) :
    bigEndian (width + 1) n = UInt8.ofNat (n / 256 ^ width) :: bigEndian width n := by
  have shift : n >>> (8 * width) = n / 256 ^ width := by
    rw [Nat.shiftRight_eq_div_pow,Nat.pow_mul]
  simp [bigEndian,List.range_succ,shift]

theorem foldl_bigEndian (width n start : Nat) :
    (bigEndian width n).foldl (fun n b => 256 * n + b.toNat) start =
      start * 256 ^ width + n % 256 ^ width := by
  induction width generalizing start with
  | zero => simp [bigEndian,Nat.mod_one]
  | succ width ih =>
    rw [bigEndian_succ,List.foldl_cons,ih,UInt8.toNat_ofNat',Nat.mod_pow_succ (b := 256)]
    ring

theorem ofBigEndian_bigEndian {width n : Nat} (bound : n < 256 ^ width) :
    ofBigEndian (bigEndian width n) = n := by
  rw [ofBigEndian,foldl_bigEndian,Nat.zero_mul,Nat.zero_add,Nat.mod_eq_of_lt bound]

/-- The low five bits of the initial byte of a head. -/
def headInfo (n : Nat) : UInt8 :=
  if n < 24 then UInt8.ofNat n
  else if n < 1 <<< 8 then 24
  else if n < 1 <<< 16 then 25
  else if n < 1 <<< 32 then 26
  else 27

theorem initial_bits : ∀ major < 8, ∀ info < 32,
    UInt8.ofNat (32 * major + info) &&& 31 = UInt8.ofNat info ∧
      UInt8.ofNat (32 * major + info) >>> 5 = UInt8.ofNat major := by
  decide

theorem readArgument_short {n : Nat} (small : n < 24) (rest : Bytes) :
    readArgument (UInt8.ofNat n) rest = .ok (.definite n,rest) := by
  have value : (UInt8.ofNat n).toNat = n := by
    rw [UInt8.toNat_ofNat',Nat.mod_eq_of_lt (by omega)]
  have below : UInt8.ofNat n < 24 := by
    rw [UInt8.lt_iff_toNat_lt,value]
    exact small
  simp [readArgument,below,value]

theorem takeBytes_bigEndian (width n : Nat) (rest : Bytes) :
    takeBytes width [] (bigEndian width n ++ rest) = .ok (bigEndian width n,rest) := by
  have taken := takeBytes_append (bigEndian width n) [] rest
  rw [length_bigEndian] at taken
  exact taken

theorem readHead_initial {major info : Nat} (small : major < 8) (bits : info < 32) (rest : Bytes) :
    readHead (UInt8.ofNat (32 * major + info) :: rest) =
      readArgument (UInt8.ofNat info) rest >>= fun (argument,rest) =>
        (Head.of (UInt8.ofNat major) (UInt8.ofNat info) argument).map (·,rest) := by
  obtain ⟨low,high⟩ := initial_bits major small info bits
  rw [readHead,low,high]
  cases readArgument (UInt8.ofNat info) rest with
  | error e => rfl
  | ok read =>
    obtain ⟨argument,rest⟩ := read
    change (Head.of (UInt8.ofNat major) (UInt8.ofNat info) argument >>= fun head =>
      pure (head,rest)) = Except.map (·,rest) (Head.of _ _ argument)
    cases Head.of (UInt8.ofNat major) (UInt8.ofNat info) argument <;> rfl

/-- A head is read back: its major type and its number. -/
theorem readHead_encodeHead {major n : Nat} (small : major < 8) (bound : n < 2 ^ 64)
    (rest : Bytes) : readHead (encodeHead major n ++ rest) =
      (Head.of (UInt8.ofNat major) (headInfo n) (.definite n)).map (·,rest) := by
  have wide (info width : Nat) (bits : info < 32) (fits : n < 256 ^ width)
      (argument : ∀ rest, readArgument (UInt8.ofNat info) rest =
        (takeBytes width [] rest).map fun read => (.definite (ofBigEndian read.1),read.2)) :
      readHead (UInt8.ofNat (32 * major + info) :: (bigEndian width n ++ rest)) =
        (Head.of (UInt8.ofNat major) (UInt8.ofNat info) (.definite n)).map (·,rest) := by
    rw [readHead_initial small bits,argument,takeBytes_bigEndian]
    change Except.bind (Except.ok (_,_)) _ = _
    simp only [Except.bind,ofBigEndian_bigEndian fits]
  unfold encodeHead headInfo
  split
  next short =>
    rw [List.singleton_append,readHead_initial small (by omega),readArgument_short short]
    rfl
  next =>
    split
    next one => exact wide 24 1 (by decide) one (fun rest => rfl)
    next =>
      split
      next two => exact wide 25 2 (by decide) two (fun rest => rfl)
      next =>
        split
        next four => exact wide 26 4 (by decide) four (fun rest => rfl)
        next => exact wide 27 8 (by decide) bound (fun rest => rfl)

/-- How reading goes on after a round. -/
def resume (fuel : Nat) : Except Fault (Progress × Bytes) → Except Fault (Item × Bytes)
  | .error e => .error e
  | .ok (.done item,rest) => .ok (item,rest)
  | .ok (.more stack,rest) => readItem fuel rest stack

theorem readItem_succ {bytes : Bytes} {head : Head} {rest : Bytes}
    (read : readHead bytes = .ok (head,rest)) (fuel : Nat) (stack : Stack) :
    readItem (fuel + 1) bytes stack = resume fuel (step head rest stack) := by
  rw [readItem,read]
  dsimp only
  split <;> simp_all [resume]

mutual

def Item.depth : Item → Nat
  | .array items => itemsDepth items + 1
  | .map entries => entriesDepth entries + 1
  | .tag _ content => content.depth
  | _ => 0

def itemsDepth : List Item → Nat
  | [] => 0
  | item :: rest => max item.depth (itemsDepth rest)

def entriesDepth : List (Item × Item) → Nat
  | [] => 0
  | (key,value) :: rest => max (max key.depth value.depth) (entriesDepth rest)

end

theorem depth_le_entriesDepth {entry : Item × Item} {entries : List (Item × Item)}
    (member : entry ∈ entries) : entry.2.depth ≤ entriesDepth entries := by
  induction entries with
  | nil => cases member
  | cons first rest ih =>
    rw [entriesDepth]
    rcases List.mem_cons.mp member with rfl | later
    · omega
    · have := ih later
      omega

theorem depth_le_itemsDepth {item : Item} {items : List Item} (member : item ∈ items) :
    item.depth ≤ itemsDepth items := by
  induction items with
  | nil => cases member
  | cons first rest ih =>
    simp only [itemsDepth]
    rcases List.mem_cons.mp member with rfl | later
    · omega
    · have := ih later
      omega

/-- Items as records are written: numbers of eight bytes at most, texts in one piece, simple values
in the short form. Maps are within bounds, and so are arrays if `sound`. -/
inductive Item.Plain (sound : Prop) : Item → Prop
  | uint {n : Nat} (bound : n < 2 ^ 64) : Plain sound (.uint n)
  | negative {n : Nat} (bound : n < 2 ^ 64) : Plain sound (.negative n)
  | text (content : Bytes) : Plain sound (.text [content])
  | array {items : List Item} (bound : sound → items.length ≤ maxElements)
      (members : ∀ item ∈ items, item.Plain sound) : Plain sound (.array items)
  | map {entries : List (Item × Item)} (bound : entries.length ≤ maxElements)
      (keys : ∀ entry ∈ entries, entry.1.Plain sound)
      (values : ∀ entry ∈ entries, entry.2.Plain sound) : Plain sound (.map entries)
  | simple {n : Nat} (bound : n < 24) : Plain sound (.simple n)

/-- Items whose texts have a length that a head can hold, and whose arrays are within bounds. -/
inductive Item.Sized : Item → Prop
  | uint (n : Nat) : Sized (.uint n)
  | negative (n : Nat) : Sized (.negative n)
  | bytes (content : Bytes) : Sized (.bytes content)
  | text {chunks : List Bytes} (short : chunks.flatten.length < 2 ^ 64) : Sized (.text chunks)
  | array {items : List Item} (few : items.length ≤ maxElements)
      (members : ∀ item ∈ items, item.Sized) : Sized (.array items)
  | map {entries : List (Item × Item)} (keys : ∀ entry ∈ entries, entry.1.Sized)
      (values : ∀ entry ∈ entries, entry.2.Sized) : Sized (.map entries)
  | tag (number : Nat) {content : Item} (inner : content.Sized) : Sized (.tag number content)
  | simple (n : Nat) : Sized (.simple n)
  | float (content : Bytes) : Sized (.float content)

/-- Reading goes on as if something had been delivered, with fuel that suffices for the rest. Only
if not `sound` may it stop with an error instead. -/
def Continues (sound : Prop) (fuel : Nat) (rest : Bytes) (reading : Except Fault (Item × Bytes))
    (delivered : Except Fault Progress) : Prop :=
  (∃ left ≤ fuel, rest.length ≤ left ∧ reading = resume left (delivered.map (·,rest))) ∨
    ¬sound ∧ ∃ e, reading = .error e

/-- The bytes of an item are read as that item, wherever an item may stand and with any bytes behind
it. `sound` says that the bounds for containers are kept. -/
def Reads (sound : Prop) (item : Item) : Prop :=
  ∀ (fuel : Nat) (stack : Stack) (rest : Bytes), awaitsChunk stack = false →
    item.encode.length + rest.length ≤ fuel →
    Continues (sound ∧ level stack + item.depth ≤ maxNesting) fuel rest
      (readItem fuel (item.encode ++ rest) stack) (deliver item stack)

theorem encodeHead_pos (major n : Nat) : 0 < (encodeHead major n).length := by
  unfold encodeHead
  grind

theorem bind_pair {α β : Type} (x : Except Fault α) (b : β) :
    (x >>= fun a => pure (a,b)) = x.map (·,b) := by
  cases x <;> rfl

/-- One round of reading, from the bytes of a head. -/
theorem readItem_encodeHead {major n : Nat} {head : Head} (small : major < 8) (bound : n < 2 ^ 64)
    (of : Head.of (UInt8.ofNat major) (headInfo n) (.definite n) = .ok head)
    (fuel : Nat) (stack : Stack) (rest : Bytes) (enough : 0 < fuel) :
    readItem fuel (encodeHead major n ++ rest) stack =
      resume (fuel - 1) (step head rest stack) := by
  obtain ⟨fuel,rfl⟩ : ∃ k, fuel = k + 1 := ⟨fuel - 1,by omega⟩
  apply readItem_succ
  rw [readHead_encodeHead small bound,of]
  rfl

section Reading

variable {sound : Prop}

theorem Continues.mono {stricter : Prop} {fuel more : Nat} {rest : Bytes}
    {reading : Except Fault (Item × Bytes)} {delivered : Except Fault Progress}
    (continues : Continues sound fuel rest reading delivered) (kept : stricter → sound)
    (less : fuel ≤ more) : Continues stricter more rest reading delivered := by
  rcases continues with ⟨left,shrinks,leaves,read⟩ | ⟨unsound,stopped⟩
  · exact .inl ⟨left,by omega,leaves,read⟩
  · exact .inr ⟨mt kept unsound,stopped⟩

theorem reads_number {item : Item} {major n : Nat} {head : Head} (small : major < 8)
    (bound : n < 2 ^ 64) (bytes : item.encode = encodeHead major n)
    (of : Head.of (UInt8.ofNat major) (headInfo n) (.definite n) = .ok head)
    (effect : ∀ rest stack, step head rest stack = (deliver item stack).map (·,rest)) :
    Reads sound item := by
  intro fuel stack rest _ enough
  rw [bytes] at enough ⊢
  have positive := encodeHead_pos major n
  refine .inl ⟨fuel - 1,by omega,by omega,?_⟩
  rw [readItem_encodeHead small bound of fuel stack rest (by omega),effect]

theorem deliverText_plain {stack : Stack} (free : awaitsChunk stack = false) (content : Bytes) :
    deliverText content stack = deliver (.text [content]) stack := by
  unfold deliverText
  split
  · cases free
  · rfl

theorem reads_text {content : Bytes} (short : content.length < 2 ^ 64) :
    Reads sound (.text [content]) := by
  intro fuel stack rest free enough
  have bytes : (Item.text [content]).encode = encodeHead 3 content.length ++ content := by
    simp [Item.encode]
  rw [bytes] at enough ⊢
  have positive := encodeHead_pos 3 content.length
  rw [List.length_append] at enough
  refine .inl ⟨fuel - 1,by omega,by omega,?_⟩
  have of : Head.of 3 (headInfo content.length) (.definite content.length) =
      .ok (.text (.definite content.length)) := rfl
  rw [List.append_assoc,readItem_encodeHead (by decide) short of fuel stack _ (by omega)]
  congr 1
  change (takeBytes content.length [] (content ++ rest) >>= fun read =>
    deliverText read.1 stack >>= fun progress => pure (progress,read.2)) = _
  rw [takeBytes_append]
  change (deliverText content stack >>= fun progress => pure (progress,rest)) = _
  rw [bind_pair,deliverText_plain free]

/-- Frames that collect a known number of items and then make an item of them. -/
structure Collects (frame : Nat → Nat → List Item → Frame)
    (finish : List Item → Stack → Except Fault Progress) : Prop where
  free : ∀ left count done n stack, awaitsChunk ((frame left count done,n) :: stack) = false
  more : ∀ item left count done n stack,
    deliver item ((frame (left + 2) count done,n) :: stack) =
      .ok (.more ((frame (left + 1) (count + 1) (item :: done),n) :: stack))
  last : ∀ item count done n stack,
    deliver item ((frame 1 count done,n) :: stack) = finish (item :: done) stack

theorem collects_array :
    Collects (fun left => .array (some left)) fun done => deliver (.array done.reverse) where
  free _ _ _ _ _ := rfl
  more _ _ _ _ _ _ := rfl
  last _ _ _ _ _ := by rw [deliver]

theorem collects_map : Collects (fun left => .map (some left)) fun done stack =>
    pairUp done [] >>= fun entries => deliver (.map entries) stack where
  free _ _ _ _ _ := rfl
  more _ _ _ _ _ _ := rfl
  last _ _ _ _ _ := by rw [deliver]

/-- The items that a frame still waits for are read one after the other. -/
theorem Collects.reads {frame : Nat → Nat → List Item → Frame}
    {finish : List Item → Stack → Except Fault Progress} (collects : Collects frame finish)
    (stack : Stack) (n : Nat) (rest : Bytes) :
    ∀ (items done : List Item) (count fuel : Nat), items ≠ [] →
      (∀ item ∈ items, Reads sound item) → (encodeItems items).length + rest.length ≤ fuel →
      Continues (sound ∧ n + itemsDepth items ≤ maxNesting) fuel rest
        (readItem fuel (encodeItems items ++ rest) ((frame items.length count done,n) :: stack))
        (finish (items.reverse ++ done) stack) := by
  intro items
  induction items with
  | nil => intro _ _ _ nonempty; cases nonempty rfl
  | cons item items ih =>
    intro done count fuel _ members enough
    simp only [encodeItems,itemsDepth,List.length_append,List.append_assoc] at enough ⊢
    have first := members item (by simp) fuel ((frame (items.length + 1) count done,n) :: stack)
      (encodeItems items ++ rest) (collects.free _ _ _ _ _)
      (by simp only [List.length_append]; omega)
    rcases first with ⟨left,shrinks,leaves,read⟩ | ⟨unsound,stopped⟩
    · rw [List.length_append] at leaves
      rw [List.length_cons,read]
      cases items with
      | nil =>
        refine .inl ⟨left,shrinks,by omega,?_⟩
        rw [List.length_nil,Nat.zero_add,collects.last]
        rfl
      | cons next items =>
        have later := ih (item :: done) (count + 1) left (by simp)
          (fun other member => members other (by simp [member])) leaves
        have order : (item :: next :: items).reverse ++ done =
            (next :: items).reverse ++ item :: done := by simp
        rw [List.length_cons,collects.more,order]
        exact later.mono (fun ⟨holds,nesting⟩ => ⟨holds,by omega⟩) shrinks
    · exact .inr ⟨fun ⟨holds,nesting⟩ => unsound ⟨holds,by simp only [level]; omega⟩,stopped⟩

/-- The keys and values of a map in the order in which they are written. -/
def members (entries : List (Item × Item)) : List Item :=
  entries.flatMap fun entry => [entry.1,entry.2]

@[simp] theorem members_cons (entry : Item × Item) (entries : List (Item × Item)) :
    members (entry :: entries) = entry.1 :: entry.2 :: members entries := rfl

theorem length_members (entries : List (Item × Item)) :
    (members entries).length = 2 * entries.length := by
  induction entries with
  | nil => rfl
  | cons entry entries ih =>
    simp only [members_cons,List.length_cons,ih]
    omega

theorem pairUp_members (entries pairs : List (Item × Item)) :
    pairUp (members entries).reverse pairs = .ok (entries ++ pairs) := by
  induction entries using List.reverseRecOn generalizing pairs with
  | nil => rfl
  | append_singleton entries entry ih =>
    have split : members (entries ++ [entry]) = members entries ++ [entry.1,entry.2] := by
      simp [members]
    simp [split,pairUp,ih]

theorem encodeEntries_eq (entries : List (Item × Item)) :
    encodeEntries entries = encodeItems (members entries) := by
  induction entries with
  | nil => rfl
  | cons entry entries ih => simp [encodeEntries,encodeItems,ih]

theorem entriesDepth_eq (entries : List (Item × Item)) :
    entriesDepth entries = itemsDepth (members entries) := by
  induction entries with
  | nil => rfl
  | cons entry entries ih => simp [entriesDepth,itemsDepth,ih,Nat.max_assoc]

section Entering

variable {stack : Stack} (free : awaitsChunk stack = false) (empty : Item)
  (frame : Option Nat → Frame)
include free

theorem enter_empty (nesting : level stack + 1 ≤ maxNesting) :
    enter (.definite 0) empty frame stack = deliver empty stack := by
  have shallow : ¬maxNesting < level stack + 1 := by omega
  simp [enter,free,shallow]

theorem enter_members (nesting : level stack + 1 ≤ maxNesting) {count : Nat} (some : count ≠ 0)
    (bound : count ≤ maxElements) :
    enter (.definite count) empty frame stack =
      .ok (.more ((frame (.some count),level stack + 1) :: stack)) := by
  obtain ⟨n,rfl⟩ := Nat.exists_eq_succ_of_ne_zero some
  have shallow : ¬maxNesting < level stack + 1 := by omega
  have few : ¬maxElements < n + 1 := by omega
  simp [enter,free,shallow,few]

theorem enter_refused {count : Nat}
    (beyond : ¬(level stack + 1 ≤ maxNesting ∧ count ≤ maxElements)) :
    ∃ e, enter (.definite count) empty frame stack = .error e := by
  by_cases deep : maxNesting < level stack + 1
  · exact ⟨.tooDeep,by simp [enter,free,deep]⟩
  · have many : maxElements < count := by omega
    obtain ⟨n,rfl⟩ := Nat.exists_eq_succ_of_ne_zero (Nat.ne_zero_of_lt many)
    exact ⟨.tooMany,by simp [enter,free,deep,many]⟩

end Entering

/-- A container is read back when its head opens a frame for its members and the frame makes that
container of them. -/
theorem Collects.reads_container {frame : Nat → Nat → List Item → Frame}
    {finish : List Item → Stack → Except Fault Progress} (collects : Collects frame finish)
    {item empty : Item} {items : List Item} {major count : Nat} {head : Head}
    {opened : Option Nat → Frame} (small : major < 8) (short : count < 2 ^ 64)
    (few : sound → count ≤ maxElements)
    (bytes : item.encode = encodeHead major count ++ encodeItems items)
    (deep : item.depth = itemsDepth items + 1)
    (of : Head.of (UInt8.ofNat major) (headInfo count) (.definite count) = .ok head)
    (effect : ∀ rest stack, step head rest stack =
      (enter (.definite count) empty opened stack).map (·,rest))
    (hollow : count = 0 → items = [] ∧ empty = item)
    (opens : count ≠ 0 → items ≠ [] ∧ opened (some count) = frame items.length 0 [])
    (closes : ∀ stack, finish items.reverse stack = deliver item stack)
    (members : ∀ member ∈ items, Reads sound member) : Reads sound item := by
  intro fuel stack rest free enough
  rw [bytes,List.length_append] at enough
  have positive := encodeHead_pos major count
  rw [bytes,List.append_assoc,readItem_encodeHead small short of fuel stack _ (by omega),effect]
  by_cases room : level stack + 1 ≤ maxNesting ∧ count ≤ maxElements
  · by_cases none : count = 0
    · obtain ⟨rfl,rfl⟩ := hollow none
      refine .inl ⟨fuel - 1,by omega,by omega,?_⟩
      rw [none,enter_empty free _ _ room.1]
      rfl
    · obtain ⟨some,frames⟩ := opens none
      have inner := collects.reads stack (level stack + 1) rest items [] 0 (fuel - 1) some members
        (by omega)
      rw [List.append_nil,closes] at inner
      rw [enter_members free _ _ room.1 none room.2,frames]
      exact inner.mono (fun ⟨holds,nesting⟩ => ⟨holds,by omega⟩) (by omega)
  · obtain ⟨e,refused⟩ := enter_refused free empty opened room
    refine .inr ⟨fun ⟨holds,nesting⟩ => room ⟨by omega,few holds⟩,e,?_⟩
    rw [refused]
    rfl

theorem reads_array {items : List Item} (short : items.length < 2 ^ 64)
    (few : sound → items.length ≤ maxElements) (members : ∀ item ∈ items, Reads sound item) :
    Reads sound (.array items) := by
  have bytes : (Item.array items).encode = encodeHead 4 items.length ++ encodeItems items := by
    rw [Item.encode]
  refine collects_array.reads_container (by decide) short few bytes (by rw [Item.depth]) rfl
    (fun _ _ => bind_pair _ _) ?_ ?_ ?_ members
  · intro none
    obtain rfl := List.length_eq_zero_iff.mp none
    exact ⟨rfl,rfl⟩
  · exact fun some => ⟨mt List.length_eq_zero_iff.mpr some,rfl⟩
  · intro stack
    rw [List.reverse_reverse]

theorem reads_map {entries : List (Item × Item)} (bound : entries.length ≤ maxElements)
    (keys : ∀ entry ∈ entries, Reads sound entry.1)
    (values : ∀ entry ∈ entries, Reads sound entry.2) : Reads sound (.map entries) := by
  have each : ∀ item ∈ members entries, Reads sound item := by
    intro item member
    obtain ⟨entry,inside,part⟩ := List.mem_flatMap.mp member
    rcases List.mem_cons.mp part with rfl | part
    · exact keys entry inside
    · obtain rfl := List.mem_singleton.mp part
      exact values entry inside
  have size := length_members entries
  refine collects_map.reads_container (show 5 < 8 by decide)
    (Nat.lt_of_le_of_lt bound (by decide)) (fun _ => bound)
    (by rw [Item.encode,encodeEntries_eq]) (by rw [Item.depth,entriesDepth_eq]) rfl
    (fun _ _ => bind_pair _ _) ?_ ?_ ?_ each
  · intro none
    obtain rfl := List.length_eq_zero_iff.mp none
    exact ⟨rfl,rfl⟩
  · intro some
    refine ⟨fun none => ?_,?_⟩
    · rw [none,List.length_nil] at size
      omega
    · rw [size]
      rfl
  · intro stack
    rw [pairUp_members,List.append_nil]
    rfl

theorem length_encode_le {item : Item} {items : List Item} (member : item ∈ items) :
    item.encode.length ≤ (encodeItems items).length := by
  induction items with
  | nil => cases member
  | cons first rest ih =>
    rw [encodeItems,List.length_append]
    rcases List.mem_cons.mp member with rfl | later
    · omega
    · have := ih later
      omega

theorem encode_pos (item : Item) : 0 < item.encode.length := by
  cases item with
  | float content => simp [Item.encode]
  | _ =>
    rw [Item.encode]
    simp [encodeHead_pos]

theorem length_le_encodeItems (items : List Item) : items.length ≤ (encodeItems items).length := by
  induction items with
  | nil => exact Nat.zero_le _
  | cons item items ih =>
    have := encode_pos item
    rw [encodeItems,List.length_append,List.length_cons]
    omega

/-- The lengths in an item fit into heads: they are known to, or the whole item is short. -/
def Item.Measured (item : Item) : Prop := item.Sized ∨ item.encode.length < 2 ^ 64

theorem Item.Measured.text {content : Bytes} (measured : (Item.text [content]).Measured) :
    content.length < 2 ^ 64 := by
  rcases measured with sized | bounded
  · cases sized with
    | text short => simpa using short
  · rw [Item.encode,List.length_append,List.flatten_singleton] at bounded
    omega

theorem Item.Measured.array {items : List Item} (measured : (Item.array items).Measured) :
    items.length < 2 ^ 64 ∧ ∀ item ∈ items, item.Measured := by
  rcases measured with sized | bounded
  · cases sized with
    | array few each =>
      exact ⟨Nat.lt_of_le_of_lt few (by decide),fun item member => .inl (each item member)⟩
  · rw [Item.encode,List.length_append] at bounded
    have := length_le_encodeItems items
    refine ⟨by omega,fun item member => .inr ?_⟩
    have := length_encode_le member
    omega

theorem Item.Measured.map {entries : List (Item × Item)} (measured : (Item.map entries).Measured)
    {entry : Item × Item} (member : entry ∈ entries) : entry.1.Measured ∧ entry.2.Measured := by
  rcases measured with sized | bounded
  · cases sized with
    | map keys values => exact ⟨.inl (keys entry member),.inl (values entry member)⟩
  · rw [Item.encode,encodeEntries_eq,List.length_append] at bounded
    have inside {item : Item} (part : item ∈ [entry.1,entry.2]) : item.Measured := by
      have here : item ∈ members entries := List.mem_flatMap.mpr ⟨entry,member,part⟩
      have := length_encode_le here
      exact .inr (by omega)
    exact ⟨inside (by simp),inside (by simp)⟩

theorem Item.Plain.reads {item : Item} (plain : item.Plain sound) (measured : item.Measured) :
    Reads sound item := by
  induction plain with
  | uint bound => exact reads_number (show 0 < 8 by decide) bound rfl rfl fun _ _ => bind_pair _ _
  | negative bound =>
    exact reads_number (show 1 < 8 by decide) bound rfl rfl fun _ _ => bind_pair _ _
  | text content => exact reads_text measured.text
  | array bound _ ih =>
    obtain ⟨short,each⟩ := measured.array
    exact reads_array short bound fun item member => ih item member (each item member)
  | map bound _ _ keys values =>
    exact reads_map bound (fun entry member => keys entry member (measured.map member).1)
      fun entry member => values entry member (measured.map member).2
  | @simple n bound =>
    have of : Head.of 7 (headInfo n) (.definite n) = .ok (.simple n) := by
      interval_cases n <;> rfl
    exact reads_number (show 7 < 8 by decide) (by omega) rfl of fun _ _ => bind_pair _ _

/-- What is written is read back as it was, or refused if it is beyond the bounds. -/
theorem Item.Plain.parse_encode {item : Item} (plain : item.Plain sound)
    (measured : item.Measured) (nesting : sound → item.depth ≤ maxNesting) :
    Gives sound (parse item.encode) item := by
  rcases plain.reads measured item.encode.length [] [] rfl (by simp) with
    ⟨left,-,-,read⟩ | ⟨beyond,e,stopped⟩
  · rw [List.append_nil] at read
    rw [parse,read]
    exact .inl rfl
  · rw [List.append_nil] at stopped
    rw [parse,stopped]
    exact .inr ⟨fun holds => beyond ⟨holds,by simpa [level] using nesting holds⟩,e,rfl⟩

end Reading

theorem parse_encode_of_sized {item : Item} (plain : item.Plain True) (sized : item.Sized)
    (nesting : item.depth ≤ maxNesting) : parse item.encode = .ok item :=
  (plain.parse_encode (.inl sized) fun _ => nesting).eq_ok trivial

theorem parse_encode {item : Item} (plain : item.Plain True) (nesting : item.depth ≤ maxNesting)
    (bounded : item.encode.length < 2 ^ 64) : parse item.encode = .ok item :=
  (plain.parse_encode (.inr bounded) fun _ => nesting).eq_ok trivial

end CoolBackend.Cbor
