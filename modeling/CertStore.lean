import CertStore.Table
import CertStore.Index
import CertStore.Clients
import CertStore.Upload
import CertStore.Commute
import CertStore.Codec
import CertStore.Admission
import CertStore.Report
import CertStore.Queries
import CertStore.Viewer
import CertStore.Uploader
import CertStore.Histories
import CertStore.Wire
import CertStore.Article
import CertStore.Site
