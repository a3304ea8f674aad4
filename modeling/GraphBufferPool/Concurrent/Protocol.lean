import GraphBufferPool.Words
import GraphBufferPool.Disk
import GraphBufferPool.Replacer.ListArray
import GraphBufferPool.Lib.Counting

/-! # The frame-ownership protocol

The abstract view of a pool shared by many threads: who made which mapping BUSY and what it will
write back, who locked which entry, who owns which frame, who holds or aims at which reference.
`Step` lists the moves such threads can make.
-/

namespace Gbp.Protocol

open Function

variable {T : Type} [DecidableEq T]

/-- The shared words and what each thread holds of them. `locks t` are the mappings thread `t` made
BUSY, the latest first, each with the word it will write next. `owned t` is the frame it took from
the free list or evicted, with the page it evicts from it. `ref t` is a counted reference, with the
page when it is a pin. `aim t` is a frame it found in a mapping and is about to count. -/
structure View (T : Type) where
  map : Page → MapWord
  pte : ℕ → PTE
  free : List ℕ
  list : List ℕ
  hand : ListIndex
  latch : Option T
  pins : List (Page × ℕ)
  memory : ℕ → Bytes
  disk : Page → Bytes
  content : Page → Bytes
  locks : T → List (Page × MapWord)
  pteLock : T → Option ℕ
  owned : T → Option (ℕ × Option Page)
  ref : T → Option (ℕ × Option Page)
  aim : T → Option ℕ
  candidate : T → Option (ℕ × Option Page)
  wrote : T → Bool
  saved : T → Bool
  filled : T → Bool

/-- The part of the protocol that the files fix: the pages of the pool and the in-file offsets. -/
structure Files where
  Valid : Page → Prop
  InFile : Page → ℕ → Prop

/-- The moves of a thread. -/
inductive Step (files : Files) (v : View T) : View T → Prop
  | aim (t : T) {page : Page} {m : ℕ} (found : v.map page = .frame m) (idle : v.aim t = none) :
      Step files v { v with aim := update v.aim t (some m) }
  | missBusy (t : T) {m : ℕ} (aimed : v.aim t = some m) (busy : (v.pte m).busy = true) :
      Step files v { v with
        pte := update v.pte m ((v.pte m).fetchAdd 1)
        aim := update v.aim t none }
  | takeRef (t : T) {m : ℕ} {page? : Option Page} (aimed : v.aim t = some m)
      (free : (v.pte m).busy = false) (idle : v.ref t = none)
      (describes : ∀ page ∈ page?, (v.pte m).page = page) :
      Step files v { v with
        pte := update v.pte m ((v.pte m).fetchAdd 1)
        aim := update v.aim t none
        ref := update v.ref t (some (m, page?)) }
  | dropRef (t : T) {m : ℕ} {page? : Option Page} (held : v.ref t = some (m, page?))
      (clean : v.wrote t = false) :
      Step files v { v with
        pte := update v.pte m ((v.pte m).fetchSub 1)
        ref := update v.ref t none }
  | keepPin (t : T) {m : ℕ} {page : Page} (held : v.ref t = some (m, some page))
      (clean : v.wrote t = false) :
      Step files v { v with
        pins := (page, m) :: v.pins
        ref := update v.ref t none }
  | usePin (t : T) {m : ℕ} {page : Page} (member : (page, m) ∈ v.pins) (idle : v.ref t = none) :
      Step files v { v with
        pins := v.pins.erase (page, m)
        ref := update v.ref t (some (m, some page)) }
  | lockMap (t : T) {page : Page} (free : v.map page ≠ .busy) (valid : files.Valid page)
      (idle : v.owned t = none) (unlocked : v.pteLock t = none) :
      Step files v { v with
        map := update v.map page .busy
        locks := update v.locks t ((page, v.map page) :: v.locks t) }
  | unlockMap (t : T) {page : Page} {word : MapWord} {rest : List (Page × MapWord)}
      (held : v.locks t = (page, word) :: rest) (unlocked : v.pteLock t = none)
      (idle : v.owned t = none) :
      Step files v { v with
        map := update v.map page word
        locks := update v.locks t rest }
  | lockPte (t : T) {page : Page} {m : ℕ} {word : PTE} {rest : List (Page × MapWord)}
      (held : v.locks t = (page, .frame m) :: rest) (locked : (v.pte m).lock? = some word)
      (idle : v.pteLock t = none) :
      Step files v { v with
        pte := update v.pte m word
        pteLock := update v.pteLock t (some m) }
  | unlockPte (t : T) {m : ℕ} {word : PTE} (held : v.pteLock t = some m)
      (unlocked : (v.pte m).unLock? = some word) :
      Step files v { v with
        pte := update v.pte m word
        pteLock := update v.pteLock t none }
  | poll (t : T) {m : ℕ} {rest : List ℕ} (first : v.free = m :: rest) (idle : v.owned t = none) :
      Step files v { v with
        free := rest
        owned := update v.owned t (some (m, none)) }
  | acquire (t : T) {m : ℕ} (free : v.latch = none) (member : m ∈ v.list) :
      Step files v { v with
        latch := some t
        candidate := update v.candidate t (some (m, none)) }
  | select (t : T) {m : ℕ} (held : v.latch = some t) (member : m ∈ v.list) :
      Step files v { v with candidate := update v.candidate t (some (m, none)) }
  | identify (t : T) {m : ℕ} {page? : Option Page} (chosen : v.candidate t = some (m, page?)) :
      Step files v { v with candidate := update v.candidate t (some (m, some (v.pte m).page)) }
  | evict (t : T) {m k : ℕ} {page : Page} {rest : List (Page × MapWord)} {hand : ListIndex}
      (held : v.locks t = (page, .frame k) :: rest) (locked : v.pteLock t = some k)
      (chosen : v.candidate t = some (m, some page)) (idle : v.owned t = none)
      (notInvalid : hand ≠ .invalid) (linked : ∀ i, hand = .node i → i ∈ v.list.erase m) :
      Step files v { v with
        list := v.list.erase m
        hand := hand
        latch := none
        locks := update v.locks t ((page, .empty) :: rest)
        pteLock := update v.pteLock t none
        candidate := update v.candidate t none
        owned := update v.owned t (some (m, some page))
        saved := update v.saved t false }
  | saveClean (t : T) {m : ℕ} {page : Page} (evicting : v.owned t = some (m, some page))
      (clean : (v.pte m).dirty = false) :
      Step files v { v with saved := update v.saved t true }
  | saveDirty (t : T) {m : ℕ} {page : Page} {disk : Page → Bytes}
      (evicting : v.owned t = some (m, some page))
      (written : ∀ i, files.InFile page i → disk page i = v.memory m i)
      (others : ∀ other, other ≠ page → ∀ i, files.InFile other i → disk other i = v.disk other i) :
      Step files v { v with
        disk := disk
        saved := update v.saved t true }
  | delete (t : T) {m : ℕ} {page : Page} {rest : List (Page × MapWord)}
      (held : v.locks t = (page, .empty) :: rest) (evicting : v.owned t = some (m, some page))
      (saved : v.saved t = true) :
      Step files v { v with
        map := update v.map page .empty
        locks := update v.locks t rest
        owned := update v.owned t (some (m, none))
        saved := update v.saved t false }
  | readPage (t : T) {m : ℕ} {page : Page} {rest : List (Page × MapWord)} {bytes : Bytes}
      (held : v.locks t = (page, .empty) :: rest) (owner : v.owned t = some (m, none))
      (filled : ∀ i, files.InFile page i → bytes i = v.disk page i) :
      Step files v { v with
        memory := update v.memory m bytes
        filled := update v.filled t true }
  | store (t : T) {m : ℕ} {page : Page} {word : PTE} {rest : List (Page × MapWord)}
      (held : v.locks t = (page, .empty) :: rest) (owner : v.owned t = some (m, none))
      (idle : v.ref t = none) (unlocked : v.pteLock t = none) (filled : v.filled t = true)
      (counts : word.refCount = 1) (initialized : word.initialized = true)
      (free : word.busy = false) (describes : word.page = page) :
      Step files v { v with
        pte := update v.pte m word
        locks := update v.locks t ((page, .frame m) :: rest)
        owned := update v.owned t none
        ref := update v.ref t (some (m, some page))
        filled := update v.filled t false }
  | insert (t : T) {m : ℕ} {page : Page} {rest : List (Page × MapWord)}
      (held : v.locks t = (page, .frame m) :: rest) (free : v.latch = none) :
      Step files v { v with list := m :: v.list.erase m }
  | setDirty (t : T) {m : ℕ} {page : Page} (held : v.ref t = some (m, some page)) :
      Step files v { v with
        pte := update v.pte m ((v.pte m).setDirty true)
        wrote := update v.wrote t false }
  | storeByte (t : T) {m : ℕ} {page : Page} (i : ℕ) (byte : UInt8)
      (held : v.ref t = some (m, some page)) :
      Step files v { v with
        memory := update v.memory m (update (v.memory m) i byte)
        content := update v.content page (update (v.content page) i byte)
        wrote := update v.wrote t true }

end Gbp.Protocol
