import Rsvndump.Library.Buffer
import Rsvndump.Library.Result
import Rsvndump.Property.Refinement

/-! Serialized properties in memory.

The writer computes a length, allocates as much and moves a pointer over it; the
terminator of a name lies where the length of its value is written next. The
reader moves a pointer by the lengths it finds, up to a zero.
-/

set_option autoImplicit false

namespace Rsvndump

open Library

variable {size : Nat}

/-- `*(int *)bptr` -/
def loadInt (buf : Buffer size) (bptr : Int) : Option Int := buf.load bptr 4 >>= readInt

/-- `*(int *)bptr = n` -/
def storeInt (buf : Buffer size) (bptr : Int) (n : Nat) : Option (Buffer size) := buf.store bptr (intBytes n)

/-- An `int` that is passed as a `size_t`. -/
def asSize (n : Int) : Nat := (n % 18446744073709551616).toNat

inductive SerializeError where
  /-- `apr_palloc` has returned NULL. -/
  | noMemory
  /-- An access that is not inside the data. -/
  | outside
  deriving DecidableEq

/-- The value of `*len`. The properties are in memory themselves, with more than eight bytes for each in the hash, so
that a `size_t` holds it. -/
def serializedLength (order : List ((_ : CString) × Bytes)) : Nat :=
  order.foldl (fun len e => len + 4 * 2 + (e.1.length + e.2.length)) 0 + 4

/-- One round of the second loop in `prop_hash_serialize`. -/
def serializeRound (state : Buffer size × Int) (e : (_ : CString) × Bytes) : Option (Buffer size × Int) := do
  let (buf, bptr) := state
  let buf ← storeInt buf bptr e.1.length
  let buf ← buf.store (bptr + 4) (CString.bytes e.1 ++ [0])
  let moved ← loadInt buf bptr
  let bptr := bptr + (4 + moved)
  let buf ← storeInt buf bptr e.2.length
  let buf ← buf.store (bptr + 4) e.2
  let moved ← loadInt buf bptr
  return (buf, bptr + (4 + moved))

/-- Encodes the properties into memory. -/
def encodeProps (buf : Buffer size) (order : List ((_ : CString) × Bytes)) : Option (Buffer size) := do
  let (buf, bptr) ← order.foldlM serializeRound (buf, 0)
  storeInt buf bptr 0

/-- `prop_hash_serialize` for a hash that is iterated in this order. The content of new memory is not known. -/
def propHashSerializeInto (palloc : (size : Nat) → Option (Buffer size)) (order : List ((_ : CString) × Bytes)) :
    Except SerializeError (Buffer (serializedLength order)) := do
  let memory ← orError .noMemory (palloc (serializedLength order))
  orError .outside (encodeProps memory order)

/-- One round of the loop in `prop_hash_reconstruct`. -/
def reconstructRound (data : Buffer size) (props : PropMap) (bptr : Int) : Option (PropMap × Int) := do
  let len ← loadInt data bptr
  let key ← data.loadString (bptr + 4) (asSize len)
  let bptr := bptr + (4 + len)
  let len ← loadInt data bptr
  let value ← data.load (bptr + 4) (asSize len)
  return (props.insert key value, bptr + (4 + len))

/-- The properties read and where the reader stops, if it does within so many rounds. -/
def propHashReconstructFrom (data : Buffer size) : Nat → PropMap → Int → Option (PropMap × Int)
  | 0, _, _ => none
  | fuel + 1, props, bptr => do
      let more ← loadInt data bptr
      if more = 0 then return (props, bptr)
      let (props, bptr) ← reconstructRound data props bptr
      propHashReconstructFrom data fuel props bptr

/-! ## What the writer leaves -/

variable {buf data : Buffer size} {front : Bytes} {bptr : Int} {order : List ((_ : CString) × Bytes)}

@[simp] theorem length_intBytes (n : Nat) : (intBytes n).length = 4 := rfl

theorem length_append_int (front : Bytes) (n : Nat) : (front ++ intBytes n).length = front.length + 4 :=
  List.length_append

theorem length_append_name (front : Bytes) (key : CString) :
    (front ++ intBytes key.length ++ CString.bytes key).length = front.length + 4 + key.length := by
  rw [List.length_append, length_append_int, CString.length_bytes]

theorem loadInt_front {n : Nat} (bptr : Int) (fits : n < 2147483648) (starts : front ++ intBytes n <+: buf.bytes)
    (place : bptr = front.length) : loadInt buf bptr = some (n : Int) := by
  have loaded : buf.load bptr 4 = some (intBytes n) := Buffer.load_front bptr starts place
  have value := readInt_intBytes fits []
  rw [List.append_nil] at value
  rw [loadInt, loaded, Option.bind_eq_bind, Option.bind_some, value]

theorem storeInt_front (bptr : Int) (n : Nat) (starts : front <+: buf.bytes) (place : bptr = front.length)
    (room : front.length + 4 ≤ size) :
    ∃ buf', storeInt buf bptr n = some buf' ∧ front ++ intBytes n <+: buf'.bytes :=
  Buffer.store_front bptr (intBytes n) starts place room

theorem length_serializeEntry (key : CString) (value : Bytes) :
    (serializeEntry key value).length = 4 + key.length + (4 + value.length) := by
  simp [serializeEntry]
  omega

theorem serializeRound_front {key : CString} {value : Bytes} (starts : front <+: buf.bytes) (place : bptr = front.length)
    (short : key.length < 2147483648) (small : value.length < 2147483648)
    (room : front.length + (serializeEntry key value).length ≤ size) :
    ∃ buf', serializeRound (buf, bptr) ⟨key, value⟩ =
        some (buf', ((front ++ serializeEntry key value).length : Int)) ∧
      front ++ serializeEntry key value <+: buf'.bytes := by
  rw [length_serializeEntry] at room
  have first := length_append_int front key.length
  have second := length_append_name front key
  have third := length_append_int (front ++ intBytes key.length ++ CString.bytes key) value.length
  have terminated : (CString.bytes key ++ [0]).length = key.length + 1 := by
    rw [List.length_append, CString.length_bytes, List.length_singleton]
  obtain ⟨buf₁, wrote₁, starts₁⟩ := storeInt_front bptr key.length starts place (by omega)
  obtain ⟨buf₂, wrote₂, starts₂⟩ := Buffer.store_front (bptr + 4) (CString.bytes key ++ [0]) starts₁
    (by omega) (by omega)
  -- the terminator does not stay: the length of the value is written over it
  have named : front ++ intBytes key.length ++ CString.bytes key <+: buf₂.bytes :=
    List.IsPrefix.trans ⟨[0], by rw [List.append_assoc _ (CString.bytes key)]⟩ starts₂
  have moved₂ := loadInt_front bptr short ((List.prefix_append _ _).trans named) place
  obtain ⟨buf₃, wrote₃, starts₃⟩ := storeInt_front (bptr + (4 + key.length)) value.length named
    (by omega) (by omega)
  obtain ⟨buf₄, wrote₄, starts₄⟩ := Buffer.store_front (bptr + (4 + key.length) + 4) value starts₃
    (by omega) (by omega)
  have moved₄ := loadInt_front (bptr + (4 + key.length)) small ((List.prefix_append _ _).trans starts₄) (by omega)
  refine ⟨buf₄, ?_, ?_⟩
  · simp only [serializeRound, wrote₁, wrote₂, moved₂, wrote₃, wrote₄, moved₄, Option.bind_eq_bind, Option.bind_some]
    rw [List.length_append, length_serializeEntry, place]
    congr 2
    push_cast
    omega
  · simpa only [serializeEntry, List.append_assoc] using starts₄

/-- The writer puts the entries one behind the other. -/
theorem serializeRounds_front (fits : ∀ e ∈ order, e.1 ≠ [] ∧ e.1.length < 2147483648 ∧ e.2.length < 2147483648)
    (starts : front <+: buf.bytes) (room : front.length + (order.flatMap fun e => serializeEntry e.1 e.2).length ≤ size) :
    ∃ buf', order.foldlM serializeRound (buf, (front.length : Int)) =
        some (buf', ((front ++ order.flatMap fun e => serializeEntry e.1 e.2).length : Int)) ∧
      (front ++ order.flatMap fun e => serializeEntry e.1 e.2) <+: buf'.bytes := by
  induction order generalizing buf front with
  | nil => exact ⟨buf, by simp, by simpa using starts⟩
  | cons e order ih =>
    obtain ⟨key, value⟩ := e
    obtain ⟨-, short, small⟩ := fits _ List.mem_cons_self
    rw [List.flatMap_cons, List.length_append] at room
    obtain ⟨buf', wrote, starts'⟩ := serializeRound_front starts rfl short small (by omega)
    have rest := ih (fun e member => fits e (List.mem_cons_of_mem _ member)) starts' (by rw [List.length_append]; omega)
    rw [List.foldlM_cons, wrote, List.flatMap_cons, ← List.append_assoc]
    exact rest

theorem serializedLength_eq (order : List ((_ : CString) × Bytes)) :
    serializedLength order = (order.flatMap fun e => serializeEntry e.1 e.2).length + 4 := by
  have sum : ∀ len, order.foldl (fun len e => len + 4 * 2 + (e.1.length + e.2.length)) len =
      len + (order.flatMap fun e => serializeEntry e.1 e.2).length := by
    induction order with
    | nil => exact fun _ => rfl
    | cons e order ih =>
      intro len
      rw [List.foldl_cons, ih, List.flatMap_cons, List.length_append, length_serializeEntry]
      omega
  rw [serializedLength, sum, Nat.zero_add]

/-- The memory is filled with the serialized properties, and no access leaves it. -/
theorem propHashSerializeInto_bytes (fits : ∀ e ∈ order, e.1 ≠ [] ∧ e.1.length < 2147483648 ∧ e.2.length < 2147483648)
    (palloc : (size : Nat) → Option (Buffer size)) :
    Post (fun data => data.bytes = (order.flatMap fun e => serializeEntry e.1 e.2) ++ intBytes 0)
      (fun e => e = .noMemory ∧ palloc (serializedLength order) = none) (propHashSerializeInto palloc order) := by
  unfold propHashSerializeInto
  cases given : palloc (serializedLength order) with
  | none => exact ⟨rfl, rfl⟩
  | some memory =>
    have size := serializedLength_eq order
    obtain ⟨buf, wrote, starts⟩ := serializeRounds_front fits (List.nil_prefix : [] <+: memory.bytes)
      (by rw [List.length_nil]; omega)
    rw [List.nil_append] at wrote starts
    obtain ⟨data, ended, whole⟩ := storeInt_front _ 0 starts rfl (by omega)
    have encoded : encodeProps memory order = some data := by
      rw [encodeProps, show (0 : Int) = (([] : Bytes).length : Int) from rfl, wrote]
      exact ended
    simp only [orError, ok_bind, encoded]
    refine (whole.eq_of_length ?_).symm
    rw [List.length_append, data.sized, length_intBytes, size]

/-! ## What the reader finds -/

theorem asSize_natCast {n : Nat} (fits : n < 2147483648) : asSize n = n := by
  unfold asSize
  omega

theorem reconstructRound_front {key : CString} {value : Bytes} (props : PropMap) (short : key.length < 2147483648)
    (small : value.length < 2147483648) (starts : front ++ serializeEntry key value <+: data.bytes)
    (place : bptr = front.length) :
    loadInt data bptr = some (key.length : Int) ∧ reconstructRound data props bptr =
      some (props.insert key value, ((front ++ serializeEntry key value).length : Int)) := by
  have first := length_append_int front key.length
  have second := length_append_name front key
  have third := length_append_int (front ++ intBytes key.length ++ CString.bytes key) value.length
  have whole : front ++ intBytes key.length ++ CString.bytes key ++ intBytes value.length ++ value <+: data.bytes := by
    simpa only [serializeEntry, List.append_assoc] using starts
  have counted := (List.prefix_append _ _).trans whole
  have named := (List.prefix_append _ _).trans counted
  have len := loadInt_front bptr short ((List.prefix_append _ _).trans named) place
  have name := Buffer.loadString_front (bptr + 4) named (by omega)
  have len' := loadInt_front (bptr + (4 + key.length)) small counted (by omega)
  have content := Buffer.load_front (bptr + (4 + key.length) + 4) whole (by omega)
  refine ⟨len, ?_⟩
  simp only [reconstructRound, len, asSize_natCast short, name, len', asSize_natCast small, content, Option.bind_eq_bind,
    Option.bind_some]
  rw [List.length_append, length_serializeEntry, place]
  congr 2
  push_cast
  omega

/-- The reader takes the entries in and stops at the zero. -/
theorem propHashReconstructFrom_front (front : Bytes)
    (fits : ∀ e ∈ order, e.1 ≠ [] ∧ e.1.length < 2147483648 ∧ e.2.length < 2147483648)
    (whole : data.bytes = front ++ (order.flatMap fun e => serializeEntry e.1 e.2) ++ intBytes 0) {fuel : Nat}
    (enough : order.length < fuel) (props : PropMap) :
    propHashReconstructFrom data fuel props front.length =
      some (order.foldl (fun m e => m.insert e.1 e.2) props, (size : Int) - 4) := by
  induction order generalizing front fuel props with
  | nil =>
    cases fuel with
    | zero => simp at enough
    | succ fuel =>
      rw [List.flatMap_nil, List.append_nil] at whole
      have zero := loadInt_front (n := 0) front.length (by decide) ⟨[], by rw [List.append_nil, whole]⟩ rfl
      have sized := data.sized
      rw [whole, List.length_append, length_intBytes] at sized
      rw [propHashReconstructFrom, zero]
      simp only [Option.bind_eq_bind, Option.bind_some, Int.natCast_zero, if_true, List.foldl_nil]
      rw [show (size : Int) - 4 = front.length by omega]
      rfl
  | cons e order ih =>
    cases fuel with
    | zero => simp at enough
    | succ fuel =>
      obtain ⟨key, value⟩ := e
      obtain ⟨named, short, small⟩ := fits _ List.mem_cons_self
      rw [List.flatMap_cons, ← List.append_assoc] at whole
      have starts : front ++ serializeEntry key value <+: data.bytes := by
        rw [whole, List.append_assoc]
        exact List.prefix_append _ _
      obtain ⟨len, round⟩ := reconstructRound_front props short small starts rfl
      have more : (key.length : Int) ≠ 0 :=
        Int.natCast_ne_zero.mpr (Nat.ne_of_gt (List.length_pos_iff.mpr named))
      rw [propHashReconstructFrom, len]
      simp only [Option.bind_eq_bind, Option.bind_some, if_neg more, round]
      exact ih _ (fun e member => fits e (List.mem_cons_of_mem _ member)) whole (by simpa using enough) _

/-! What the storage loads is read without leaving the data. -/

theorem readInt_short {data : Bytes} (short : data.length < 4) : readInt data = none := by
  rcases data with _ | ⟨b0, _ | ⟨b1, _ | ⟨b2, _ | ⟨b3, rest⟩⟩⟩⟩
  · rfl
  · rfl
  · rfl
  · rfl
  · simp only [List.length_cons] at short
    omega

theorem length_of_readInt {data : Bytes} {n : Int} (found : readInt data = some n) : 4 ≤ data.length := by
  by_contra short
  rw [readInt_short (by omega)] at found
  cases found

theorem readInt_lt {data : Bytes} {n : Int} (found : readInt data = some n) : n < 2147483648 := by
  unfold readInt at found
  split at found
  · next b0 b1 b2 b3 _ =>
    have := b0.toNat_lt
    have := b1.toNat_lt
    have := b2.toNat_lt
    have := b3.toNat_lt
    simp only [Option.some.injEq] at found
    split at found <;> omega
  · cases found

theorem loadInt_eq (data : Buffer size) (bptr : Nat) : loadInt data bptr = readInt (data.bytes.drop bptr) := by
  have sized := data.sized
  rw [loadInt, Buffer.load, Int.toNat_natCast]
  split
  · rcases data.bytes.drop bptr with _ | ⟨b0, _ | ⟨b1, _ | ⟨b2, _ | ⟨b3, rest⟩⟩⟩⟩ <;> rfl
  · rw [readInt_short (by rw [List.length_drop]; omega)]
    rfl

/-- A round of the storage is one of the reader. -/
theorem reconstructRound_of_readInt {props : PropMap} {o : Nat} {n m more : Int} (positive : 0 < n) (nonneg : 0 ≤ m)
    (len : readInt (data.bytes.drop o) = some n) (len' : readInt (data.bytes.drop (o + 4 + n.toNat)) = some m)
    (next : readInt (data.bytes.drop (o + 4 + n.toNat + 4 + m.toNat)) = some more) :
    reconstructRound data props o =
      some (props.insert (CString.ofBytes ((data.bytes.drop (o + 4)).take n.toNat))
        ((data.bytes.drop (o + 4 + n.toNat + 4)).take m.toNat), ((o + 4 + n.toNat + 4 + m.toNat : Nat) : Int)) := by
  have sized := data.sized
  have named := length_of_readInt len'
  have valued := length_of_readInt next
  have short := readInt_lt len
  have small := readInt_lt len'
  rw [List.length_drop] at named valued
  have size₁ : asSize n = n.toNat := by
    unfold asSize
    omega
  have size₂ : asSize m = m.toNat := by
    unfold asSize
    omega
  have name : data.loadString (o + 4) n.toNat = some (CString.ofBytes ((data.bytes.drop (o + 4)).take n.toNat)) := by
    have place : ((o : Int) + 4).toNat = o + 4 := by omega
    rw [Buffer.loadString, place]
    refine if_pos ⟨by omega, .inl ?_⟩
    rw [List.length_take, List.length_drop]
    omega
  have content : data.load ((o + 4 + n.toNat : Nat) + 4) m.toNat =
      some ((data.bytes.drop (o + 4 + n.toNat + 4)).take m.toNat) := by
    have place : (((o + 4 + n.toNat : Nat) : Int) + 4).toNat = o + 4 + n.toNat + 4 := by omega
    rw [Buffer.load, place, if_pos (by omega)]
  have behind : (o : Int) + (4 + n) = ((o + 4 + n.toNat : Nat) : Int) := by omega
  simp only [reconstructRound, loadInt_eq, len, Option.bind_eq_bind, Option.bind_some, size₁, name, behind, len', size₂,
    content]
  rw [show ((o + 4 + n.toNat : Nat) : Int) + (4 + m) = ((o + 4 + n.toNat + 4 + m.toNat : Nat) : Int) by omega]
  rfl

theorem readInt_of_loop {fuel : Nat} {props loaded : PropMap} {bytes : Bytes}
    (found : propHashReconstructLoop fuel props bytes = some loaded) : ∃ n, readInt bytes = some n := by
  cases fuel with
  | zero => cases found
  | succ fuel =>
    obtain ⟨n, len, -⟩ := Option.bind_eq_some_iff.mp found
    exact ⟨n, len⟩

theorem propHashReconstructFrom_of_loop {fuel : Nat} {props loaded : PropMap} {o : Nat}
    (found : propHashReconstructLoop fuel props (data.bytes.drop o) = some loaded) :
    ∃ last, propHashReconstructFrom data fuel props o = some (loaded, last) ∧ loadInt data last = some 0 := by
  induction fuel generalizing props o with
  | zero => cases found
  | succ fuel ih =>
    simp only [propHashReconstructLoop, Option.bind_eq_bind, Option.bind_eq_some_iff] at found
    obtain ⟨n, len, found⟩ := found
    rw [propHashReconstructFrom, loadInt_eq, len]
    simp only [Option.bind_eq_bind, Option.bind_some]
    split at found
    · next zero =>
      cases found
      refine ⟨o, if_pos zero, ?_⟩
      rw [loadInt_eq, len, zero]
    · next other =>
      simp only [Option.bind_eq_some_iff, List.drop_drop, Option.guard_eq_some'] at found
      obtain ⟨-, positive, m, len', -, nonneg, found⟩ := found
      obtain ⟨more, next⟩ := readInt_of_loop found
      rw [if_neg other, reconstructRound_of_readInt positive nonneg len len' next]
      exact ih found

/-- Whatever the storage can load, the reader reads from memory without an access outside of it. -/
theorem propHashReconstructFrom_of_storage {into loaded : PropMap}
    (found : propHashReconstruct into data.bytes = some loaded) :
    ∃ last, propHashReconstructFrom data (size + 1) into 0 = some (loaded, last) ∧ loadInt data last = some 0 := by
  rw [propHashReconstruct, data.sized] at found
  exact propHashReconstructFrom_of_loop (o := 0) found

/-! ## The round trip -/

/-- Serialized properties fill the memory that was asked for and are read back from it. The reader stops at the
zero at its end. -/
theorem prop_hash_round_trip {props : PropMap} (fits : Fits props) {order : List ((_ : CString) × Bytes)}
    (listed : order.Perm props.entries) (palloc : (size : Nat) → Option (Buffer size)) :
    Post (fun data => loadInt data ((serializedLength order : Int) - 4) = some 0 ∧
        ∃ loaded : PropMap, (∀ fuel, order.length < fuel → propHashReconstructFrom data fuel ∅ 0 =
          some (loaded, (serializedLength order : Int) - 4)) ∧ ∀ key, loaded.lookup key = props.lookup key)
      (fun e => e = .noMemory ∧ palloc (serializedLength order) = none) (propHashSerializeInto palloc order) := by
  have fits : ∀ e ∈ order, e.1 ≠ [] ∧ e.1.length < 2147483648 ∧ e.2.length < 2147483648 :=
    fun e member => fits e (listed.mem_iff.mp member)
  have distinct : order.NodupKeys := (List.perm_nodupKeys listed).mpr props.nodupKeys
  refine (propHashSerializeInto_bytes fits palloc).mono (fun data _ whole =>
    ⟨?_, order.foldl (fun m e => m.insert e.1 e.2) ∅, fun fuel enough => ?_, fun key => ?_⟩) fun _ => id
  · have ended : (order.flatMap fun e => serializeEntry e.1 e.2) ++ intBytes 0 <+: data.bytes :=
      ⟨[], by rw [List.append_nil, whole]⟩
    refine loadInt_front (n := 0) _ (by decide) ended ?_
    rw [serializedLength_eq]
    omega
  · exact propHashReconstructFrom_front [] fits whole enough ∅
  · have found := lookup_foldl_insert order distinct id ∅ key
    rw [List.perm_dlookup key distinct listed] at found
    simpa [AList.lookup] using found

/-! A name of one character with a value that holds a terminator, and a name of two without a value. -/

def listedProps : List ((_ : CString) × Bytes) := [⟨cstr "a", [0, 1]⟩, ⟨cstr "bc", []⟩]

def twoProps : PropMap := AList.insert (cstr "bc") [] (AList.insert (cstr "a") [0, 1] ∅)

def zeroed (size : Nat) : Option (Buffer size) := some ⟨List.replicate size 0, List.length_replicate⟩

example : (propHashSerializeInto zeroed listedProps).map Buffer.bytes =
    .ok [1, 0, 0, 0, 97, 2, 0, 0, 0, 0, 1, 2, 0, 0, 0, 98, 99, 0, 0, 0, 0, 0, 0, 0, 0] := by decide

/-- They are iterated in the other order. -/
theorem prop_hash_round_trip_two :
    Post (fun data => loadInt data ((serializedLength listedProps : Int) - 4) = some 0 ∧
        ∃ loaded : PropMap, (∀ fuel, listedProps.length < fuel → propHashReconstructFrom data fuel ∅ 0 =
          some (loaded, (serializedLength listedProps : Int) - 4)) ∧ ∀ key, loaded.lookup key = twoProps.lookup key)
      (fun e => e = .noMemory ∧ zeroed (serializedLength listedProps) = none)
      (propHashSerializeInto zeroed listedProps) :=
  prop_hash_round_trip (by decide) (List.Perm.swap _ _ []) zeroed

end Rsvndump
