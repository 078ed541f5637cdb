import ReleasePipeline.Main
import ReleasePipeline.Proofs.Text.Search
import ReleasePipeline.Proofs.Version.Reading
import ReleasePipeline.Proofs.Version.Next
import ReleasePipeline.Proofs.Version.Tag
import ReleasePipeline.Proofs.Tool.TagListing
import ReleasePipeline.Proofs.Run.Course
import ReleasePipeline.Proofs.Run.Effects
import ReleasePipeline.Proofs.Plugin.Steps
import ReleasePipeline.Proofs.Plugin.Effects
import ReleasePipeline.Proofs.Run.DryRun
import ReleasePipeline.Proofs.Run.Mirror
import ReleasePipeline.Proofs.Plugin.Rehearsal
import ReleasePipeline.Proofs.Run.Rehearsal
import ReleasePipeline.Proofs.Run.Tagging
import ReleasePipeline.Proofs.Run.Session
import ReleasePipeline.Proofs.Run.Relation
import ReleasePipeline.Proofs.Template
import ReleasePipeline.Proofs.Version.Promotion
import ReleasePipeline.Proofs.Version.Successor
import ReleasePipeline.Proofs.Version.Spelling
import ReleasePipeline.Proofs.Run.Agreement
import ReleasePipeline.Proofs.Plugin.Agreement
import ReleasePipeline.Proofs.Run.Isolation
import ReleasePipeline.Proofs.Run.LastTag
import ReleasePipeline.Proofs.Plugin.Faults
import ReleasePipeline.Proofs.Run.Stopping
import ReleasePipeline.Proofs.Run.Latent
import ReleasePipeline.Proofs.CommandLine.Refusal
import ReleasePipeline.Proofs.Run.Discovery
import ReleasePipeline.Proofs.Plugin.Templates
import ReleasePipeline.Proofs.Config.Shape
import ReleasePipeline.Proofs.Files.Tree
import ReleasePipeline.Proofs.Json.Token
import ReleasePipeline.Proofs.Json.Document
import ReleasePipeline.Proofs.Config.File
import ReleasePipeline.Proofs.Commit.Grammar
import ReleasePipeline.Proofs.Commit.Notes
import ReleasePipeline.Proofs.Commit.NoteType
import ReleasePipeline.Proofs.Commit.Sections
import ReleasePipeline.Proofs.Commit.Rule
import ReleasePipeline.Proofs.Manifest.Version
import ReleasePipeline.Proofs.Text.Breaking
import ReleasePipeline.Proofs.Manifest.Header
import ReleasePipeline.Proofs.Manifest.Site
import ReleasePipeline.Proofs.Manifest.Table
import ReleasePipeline.Proofs.Plugin.Deeds
import ReleasePipeline.Proofs.Run.OneVersion
import ReleasePipeline.Proofs.CommandLine.Branch
import ReleasePipeline.Proofs.CommandLine.Configuration
import ReleasePipeline.Proofs.Template.Splitting
import ReleasePipeline.Proofs.Plugin.Manifests
import ReleasePipeline.Proofs.Plugin.ChangelogTitle
import ReleasePipeline.Proofs.Plugin.Staging
import ReleasePipeline.Proofs.Run.Commits
import ReleasePipeline.Proofs.Commit.Scope
import ReleasePipeline.Proofs.Plugin.Registration
import ReleasePipeline.Proofs.Plugin.Search
import ReleasePipeline.Proofs.Plugin.Assets
