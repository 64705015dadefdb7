import SpeckitLog.Lib.FileSystem

/-!
# Operations on some of the files

Operations that keep to certain places of a file system leave the other places alone: each
leads to the file it led to, with the bytes that it had.  For the operations that name a
file, and not a place, this needs that no other place leads to it.

## Main definitions

* `FileSystem.SameOutside ours fs fs'` — no place but `ours` was touched.
* `FileSystem.Within ours fs n` — no place but `ours` leads to the file `n`.

## Main results

* `FileSystem.sameOutside_append`, `sameOutside_openAppend`, `sameOutside_rename` — one for
  each operation.
* `FileSystem.SameOutside.trans`, `FileSystem.SameOutside.within` — how they compose.
-/

namespace FileSystem

variable {π : Type*} [DecidableEq π] {ours : π → Prop} {fs fs₁ fs' : FileSystem π} {p q : π}
  {n : ℕ}

/-- **No place but `ours` was touched.** -/
structure SameOutside (ours : π → Prop) (fs fs' : FileSystem π) : Prop where
  lookup : ∀ p, ¬ ours p → fs'.lookup p = fs.lookup p
  data : ∀ p n, ¬ ours p → fs.lookup p = some n → fs'.data n = fs.data n

/-- No place but `ours` leads to the file. -/
def Within (ours : π → Prop) (fs : FileSystem π) (n : ℕ) : Prop :=
  ∀ p, ¬ ours p → fs.lookup p ≠ some n

theorem SameOutside.refl (ours : π → Prop) (fs : FileSystem π) : SameOutside ours fs fs where
  lookup _ _ := rfl
  data _ _ _ _ := rfl

theorem SameOutside.trans (h : SameOutside ours fs fs₁) (h' : SameOutside ours fs₁ fs') :
    SameOutside ours fs fs' where
  lookup p hp := (h'.lookup p hp).trans (h.lookup p hp)
  data p n hp hn := by
    rw [← h.data p n hp hn]
    apply h'.data p n hp
    rw [h.lookup p hp, hn]

/-- The content of the other places is as it was. -/
theorem SameOutside.content (h : SameOutside ours fs fs') (hp : ¬ ours p) :
    fs'.content p = fs.content p := by
  unfold FileSystem.content
  rw [h.lookup p hp]
  cases hn : fs.lookup p with
  | none => rfl
  | some n => exact congrArg some (h.data p n hp hn)

theorem SameOutside.within (h : SameOutside ours fs fs') (hn : Within ours fs n) :
    Within ours fs' n := by
  intro p hp
  rw [h.lookup p hp]
  exact hn p hp

/-- A file at one of our places is at no other. -/
theorem within_of_lookup (hp : ours p) (h : fs.lookup p = some n) : Within ours fs n := by
  intro q hq hlookup
  apply hq
  rwa [fs.single q p n hlookup h]

/-- **Bytes for one of our files.** -/
theorem sameOutside_append (hn : Within ours fs n) (bytes : Text) :
    SameOutside ours fs (fs.append n bytes) where
  lookup _ _ := rfl
  data p m hp hm := by
    apply data_append_of_ne
    rintro rfl
    exact hn p hp hm

/-- **Opening at one of our places.** -/
theorem sameOutside_openAppend (hp : ours p) : SameOutside ours fs (fs.openAppend p).2 where
  lookup q hq := by
    apply lookup_openAppend_of_ne
    rintro rfl
    exact hq hp
  data _ _ _ hn := data_openAppend fs p hn

theorem within_openAppend (hp : ours p) : Within ours (fs.openAppend p).2 (fs.openAppend p).1 :=
  within_of_lookup hp (lookup_openAppend_self fs p)

/-- **Renaming from one of our places to another.** -/
theorem sameOutside_rename (hp : ours p) (hq : ours q) (h : fs.rename p q = some fs') :
    SameOutside ours fs fs' := by
  obtain ⟨n, -, hdata, hlookup⟩ := rename_eq_some h
  constructor
  · intro r hr
    rw [hlookup, if_neg, if_neg]
    · rintro rfl
      exact hr hp
    · rintro rfl
      exact hr hq
  · intro r m _ _
    rw [hdata]

end FileSystem
