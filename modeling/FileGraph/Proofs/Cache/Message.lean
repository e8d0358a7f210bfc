import FileGraph.Proofs.Cache.Codec
import FileGraph.Proofs.Cache.Lookup
/-!
# Message — what the key of a file is a digest of

The message of a file is the tag of its language, a zero byte and its content.  No tag has a zero byte, so different
files have different messages (`message_injective`), and all that keys need to tell files apart is that the digest
does not collide on their messages (`Apart.of_uncollided`).
-/
namespace FileGraph

/-- The bytes whose digest is the key of a file. -/
def Cache.message (f : Subject) : List UInt8 := f.1.tag.toUTF8.data.toList ++ 0 :: f.2.toUTF8.data.toList

theorem Language.ofTag?_tag (l : Language) : ofTag? l.tag = some l := by
  cases l <;> rfl

theorem Language.zero_notMem_tag (l : Language) : (0 : UInt8) ∉ l.tag.toUTF8.data.toList := by
  cases l <;> decide

namespace Cache

/-- What stands before the first separator, and what stands after it. -/
theorem append_cons_inj {sep : UInt8} : ∀ {xs ys as bs : List UInt8}, sep ∉ xs → sep ∉ ys →
    xs ++ sep :: as = ys ++ sep :: bs → xs = ys ∧ as = bs
  | [], [], _, _, _, _, h => ⟨rfl, (List.cons.inj h).2⟩
  | [], y :: ys, _, _, _, hy, h => absurd ((List.cons.inj h).1 ▸ List.mem_cons_self) hy
  | x :: xs, [], _, _, hx, _, h => absurd ((List.cons.inj h).1 ▸ List.mem_cons_self) hx
  | x :: xs, y :: ys, _, _, hx, hy, h => by
    obtain ⟨hhead, htail⟩ := List.cons.inj h
    obtain ⟨hxs, has⟩ := append_cons_inj (fun hm => hx (List.mem_cons_of_mem _ hm))
      (fun hm => hy (List.mem_cons_of_mem _ hm)) htail
    exact ⟨by rw [hhead, hxs], has⟩

/-- **Different files have different messages.** -/
theorem message_injective {f f' : Subject} (h : message f = message f') : f = f' := by
  obtain ⟨language, content⟩ := f
  obtain ⟨language', content'⟩ := f'
  obtain ⟨htag, hcontent⟩ := append_cons_inj language.zero_notMem_tag language'.zero_notMem_tag h
  have hlanguage : language = language' := by
    have hread := congrArg Text.decode? htag
    rw [decode?_toUTF8, decode?_toUTF8, Option.some.injEq] at hread
    have htags := congrArg Language.ofTag? hread
    rwa [Language.ofTag?_tag, Language.ofTag?_tag, Option.some.injEq] at htags
  have hread := congrArg Text.decode? hcontent
  rw [decode?_toUTF8, decode?_toUTF8, Option.some.injEq] at hread
  exact Prod.ext hlanguage hread

/-- The digest does not collide on the messages of files. -/
def Uncollided (fs : List Subject) : Prop :=
  ∀ f ∈ fs, ∀ f' ∈ fs, Digest.sha256 (message f) = Digest.sha256 (message f') → message f = message f'

theorem Apart.of_uncollided {fs : List Subject} (h : Uncollided fs) : Apart fs :=
  fun f hf f' hf' hkey => message_injective (h f hf f' hf' hkey)

theorem Uncollided.mono {fs fs' : List Subject} (h : Uncollided fs) (hsub : ∀ f ∈ fs', f ∈ fs) : Uncollided fs' :=
  fun f hf f' hf' => h f (hsub f hf) f' (hsub f' hf')

theorem uncollided_replicate (n : Nat) (f : Subject) : Uncollided (List.replicate n f) := by
  intro x hx y hy _
  rw [List.eq_of_mem_replicate hx, List.eq_of_mem_replicate hy]

theorem uncollided_pair {f f' : Subject} (h : Digest.sha256 (message f) ≠ Digest.sha256 (message f')) :
    Uncollided [f, f'] := by
  simp only [Uncollided, List.mem_cons, List.not_mem_nil, or_false]
  rintro x (rfl | rfl) y (rfl | rfl) hsame
  · rfl
  · exact absurd hsame h
  · exact absurd hsame.symm h
  · rfl

end Cache

end FileGraph
